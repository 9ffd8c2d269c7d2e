import Libhipcxx.Chrono.DurationTime
import Libhipcxx.Chrono.Weekday

/-!
# Months added to and subtracted from dates

A `year_month` is counted in months, and the year of a sum is found by a
division that rounds towards zero and a bias for negative numbers.  The year is
a `short`, so the count is known modulo `12 * 2 ^ 16`.

`year_month::operator+=` changes the month and leaves the year as it is; the
same operator of the types that contain a day assigns the sum.
-/

namespace Libhipcxx.Chrono

open MachineInt
open Rational (Failure)

/-! ## years and months -/

/-- `years`, of 146097 days in 400 of them. -/
def years : DurationType where
  rep := .int
  Num := 31556952
  Den := 1
  period := ⟨31556952, 1, Int.one_pos, Rational.max_pos, by decide, isCoprime_one_right⟩
  period_eq := by decide +kernel
  period_pos := by decide

def months : DurationType where
  rep := .int
  Num := 2629746
  Den := 1
  period := ⟨2629746, 1, Int.one_pos, Rational.max_pos, by decide, isCoprime_one_right⟩
  period_eq := by decide +kernel
  period_pos := by decide

namespace Year

def add (lhs : Year) (rhs : Duration years) : Option Year :=
  (int32 (lhs.toInt + rhs.count)).map Year.ofInt

/-- The difference of two years. -/
def difference (lhs rhs : Year) : Option (Duration years) :=
  (int32 (lhs.toInt - rhs.toInt)).map (Duration.ofNumber years)

end Year

namespace Month

def add (lhs : Month) (rhs : Duration months) : Option Month := do
  let step ← int32 (rhs.count - 1)
  let mu ← Rep.longLong.type.arith (lhs.toUnsigned.toNat + step)
  let dividend ← (if 0 ≤ mu then some mu else Rep.longLong.type.arith (mu - 11))
  let yr := dividend.tdiv 12
  let product ← Rep.longLong.type.arith (yr * 12)
  let rest ← Rep.longLong.type.arith (mu - product)
  let m ← Rep.longLong.type.arith (rest + 1)
  return Month.ofUnsigned (BitVec.ofInt 32 m)

def sub (lhs : Month) (rhs : Duration months) : Option Month := do
  lhs.add (← rhs.neg)

/-- The difference of two months. -/
def difference (lhs rhs : Month) : Duration months :=
  let dm := lhs.toUnsigned - rhs.toUnsigned
  Duration.ofNumber months (if dm ≤ 11 then dm else dm + 12).toNat

/-- `operator+=`. -/
def addAssign (lhs : Month) (rhs : Duration months) : Option Month := lhs.add rhs

/-- `operator-=`. -/
def subAssign (lhs : Month) (rhs : Duration months) : Option Month := lhs.sub rhs

end Month

/-! ## year_month -/

structure YearMonth where
  year : Year
  month : Month
deriving DecidableEq

namespace YearMonth

def ok (ym : YearMonth) : Bool := ym.year.ok && ym.month.ok

def add (lhs : YearMonth) (rhs : Duration months) : Option YearMonth := do
  let first ← int32 (lhs.month.toUnsigned.toInt - 1)
  let dmi ← int32 (first + rhs.count)
  let dividend ← (if 0 ≤ dmi then some dmi else int32 (dmi - 11))
  let dy := dividend.tdiv 12
  let product ← int32 (dy * 12)
  let rest ← int32 (dmi - product)
  let dmi ← int32 (rest + 1)
  let year ← lhs.year.add (Duration.ofNumber years dy)
  return ⟨year, Month.ofUnsigned (BitVec.ofInt 32 dmi)⟩

def sub (lhs : YearMonth) (rhs : Duration months) : Option YearMonth := do
  lhs.add (← rhs.neg)

/-- The difference of two `year_month`: years and months, converted to
`months`. -/
def difference (lhs rhs : YearMonth) : Except Failure (Option (Duration months)) := do
  let ops ← operands years months
  let factor ← conversion ops.common months
  match lhs.year.difference rhs.year with
  | none => return none
  | some dy =>
      let dm := Duration.ofNumber months
        (lhs.month.toUnsigned - rhs.month.toUnsigned).toNat
      let sum ← Chrono.add dy dm
      return sum.bind fun ⟨_, d⟩ => durationCast factor months d

/-- `operator+=`, of the month only. -/
def addAssign (lhs : YearMonth) (rhs : Duration months) : Option YearMonth := do
  return { lhs with month := ← lhs.month.addAssign rhs }

/-- `operator-=`, of the month only. -/
def subAssign (lhs : YearMonth) (rhs : Duration months) : Option YearMonth := do
  return { lhs with month := ← lhs.month.subAssign rhs }

end YearMonth

/-! ## The types with a day -/

namespace YearMonthDay

def add (lhs : YearMonthDay) (rhs : Duration months) : Option YearMonthDay := do
  let ym ← YearMonth.add ⟨lhs.year, lhs.month⟩ rhs
  return ⟨ym.year, ym.month, lhs.day⟩

def sub (lhs : YearMonthDay) (rhs : Duration months) : Option YearMonthDay := do
  lhs.add (← rhs.neg)

def addAssign (lhs : YearMonthDay) (rhs : Duration months) : Option YearMonthDay :=
  lhs.add rhs

def subAssign (lhs : YearMonthDay) (rhs : Duration months) : Option YearMonthDay :=
  lhs.sub rhs

end YearMonthDay

structure MonthDayLast where
  m : Month
deriving DecidableEq

structure YearMonthDayLast where
  year : Year
  mdl : MonthDayLast
deriving DecidableEq

namespace YearMonthDayLast

def add (lhs : YearMonthDayLast) (rhs : Duration months) : Option YearMonthDayLast := do
  let ym ← YearMonth.add ⟨lhs.year, lhs.mdl.m⟩ rhs
  return ⟨ym.year, ⟨ym.month⟩⟩

def sub (lhs : YearMonthDayLast) (rhs : Duration months) : Option YearMonthDayLast := do
  lhs.add (← rhs.neg)

def addAssign (lhs : YearMonthDayLast) (rhs : Duration months) :
    Option YearMonthDayLast :=
  lhs.add rhs

def subAssign (lhs : YearMonthDayLast) (rhs : Duration months) :
    Option YearMonthDayLast :=
  lhs.sub rhs

end YearMonthDayLast

namespace YearMonthWeekday

def add (lhs : YearMonthWeekday) (rhs : Duration months) : Option YearMonthWeekday := do
  let ym ← YearMonth.add ⟨lhs.year, lhs.month⟩ rhs
  return ⟨ym.year, ym.month, lhs.wdi⟩

def sub (lhs : YearMonthWeekday) (rhs : Duration months) : Option YearMonthWeekday := do
  lhs.add (← rhs.neg)

def addAssign (lhs : YearMonthWeekday) (rhs : Duration months) :
    Option YearMonthWeekday :=
  lhs.add rhs

def subAssign (lhs : YearMonthWeekday) (rhs : Duration months) :
    Option YearMonthWeekday :=
  lhs.sub rhs

end YearMonthWeekday

/-! ## Months counted from the year zero -/

/-- The month of a year, from zero to eleven. -/
def Month.index (month : Month) : ℤ := month.m.toNat - 1

/-- The month number `i` of a year, from zero on. -/
def Month.ofIndex (i : ℤ) : Month :=
  Month.ofUnsigned (BitVec.ofNat 32 (i % 12 + 1).toNat)

theorem Month.index_bounds {month : Month} (hok : month.ok = true) :
    0 ≤ month.index ∧ month.index < 12 := by
  simp only [Month.ok, Bool.and_eq_true, decide_eq_true_eq, BitVec.le_def] at hok
  have hlo : 1 ≤ month.m.toNat := hok.1
  have hhi : month.m.toNat ≤ 12 := hok.2
  rw [Month.index]
  omega

theorem Month.ofIndex_index {month : Month} (hok : month.ok = true) :
    Month.ofIndex month.index = month := by
  obtain ⟨hlo, hhi⟩ := Month.index_bounds hok
  have hindex : (month.index % 12 + 1).toNat = month.m.toNat := by
    rw [Int.emod_eq_of_lt hlo hhi, Month.index]
    omega
  rw [Month.ofIndex, hindex, ofUnsigned_toNat]

theorem Month.ok_ofIndex (i : ℤ) : (Month.ofIndex i).ok = true := by
  have hlo := Int.emod_nonneg i (by decide : (12 : ℤ) ≠ 0)
  have hhi := Int.emod_lt_of_pos i (by decide : (0 : ℤ) < 12)
  exact ok_month (by omega) (by omega)

theorem Month.index_ofIndex (i : ℤ) : (Month.ofIndex i).index = i % 12 := by
  have hlo := Int.emod_nonneg i (by decide : (12 : ℤ) ≠ 0)
  have hhi := Int.emod_lt_of_pos i (by decide : (0 : ℤ) < 12)
  rw [Month.index, Month.ofIndex, Month.ofUnsigned,
    BitVec.setWidth_ofNat_of_le (by decide), toNat_ofNat_of_lt (by omega)]
  omega

theorem Month.ofIndex_congr {i j : ℤ} (h : i % 12 = j % 12) :
    Month.ofIndex i = Month.ofIndex j := by
  rw [Month.ofIndex, Month.ofIndex, h]

theorem Month.toNat_toUnsigned (month : Month) :
    (month.toUnsigned.toNat : ℤ) = month.index + 1 := by
  have hlt := month.m.isLt
  rw [Month.toUnsigned, BitVec.toNat_setWidth, Nat.mod_eq_of_lt (by omega), Month.index]
  omega

theorem Month.toInt_toUnsigned (month : Month) :
    month.toUnsigned.toInt = month.index + 1 := by
  have hlt := month.m.isLt
  rw [← Month.toNat_toUnsigned]
  apply BitVec.toInt_eq_toNat_of_lt
  rw [Month.toUnsigned, BitVec.toNat_setWidth, Nat.mod_eq_of_lt (by omega)]
  omega

/-- The month that a remainder of twelve, plus one, is converted to. -/
theorem Month.ofInt_remainder {i x : ℤ} (h : x = i % 12 + 1) :
    Month.ofUnsigned (BitVec.ofInt 32 x) = Month.ofIndex i := by
  have hlo := Int.emod_nonneg i (by decide : (12 : ℤ) ≠ 0)
  have hx : x = ((i % 12 + 1).toNat : ℤ) := by omega
  rw [Month.ofIndex, hx, BitVec.ofInt_natCast]

theorem Year.toInt_bounds (year : Year) : -32768 ≤ year.toInt ∧ year.toInt < 32768 :=
  ⟨BitVec.le_toInt year.y, BitVec.toInt_lt⟩

/-- A year is known modulo `2 ^ 16`. -/
theorem Year.ofInt_congr {y z : ℤ} (h : y % 65536 = z % 65536) :
    Year.ofInt y = Year.ofInt z := by
  rw [Year.ofInt, Year.ofInt]
  congr 1
  apply BitVec.eq_of_toNat_eq
  rw [BitVec.toNat_ofInt, BitVec.toNat_ofInt]
  exact congrArg Int.toNat h

theorem Year.toInt_ofInt_emod (y : ℤ) : (Year.ofInt y).toInt % 65536 = y % 65536 := by
  rw [Year.toInt, Year.ofInt, BitVec.toInt_ofInt]
  exact Int.bmod_emod

theorem Year.ofInt_toInt (year : Year) : Year.ofInt year.toInt = year := by
  rw [Year.ofInt, Year.toInt, BitVec.ofInt_toInt]

namespace YearMonth

/-- The number of a month, counted from the first of the year zero. -/
def number (ym : YearMonth) : ℤ := 12 * ym.year.toInt + ym.month.index

def ofNumber (n : ℤ) : YearMonth := ⟨Year.ofInt (n / 12), Month.ofIndex n⟩

theorem ofNumber_number {ym : YearMonth} (hok : ym.month.ok = true) :
    ofNumber ym.number = ym := by
  obtain ⟨hlo, hhi⟩ := Month.index_bounds hok
  have hyear : ym.number / 12 = ym.year.toInt := by
    rw [number]
    omega
  have hmonth : ym.number % 12 = ym.month.index % 12 := by
    rw [number]
    omega
  rw [ofNumber, hyear, Year.ofInt_toInt, Month.ofIndex_congr hmonth,
    Month.ofIndex_index hok]

/-- Months are counted modulo the months of `2 ^ 16` years. -/
theorem ofNumber_congr {n n' : ℤ} (h : n % 786432 = n' % 786432) :
    ofNumber n = ofNumber n' := by
  have hyear : n / 12 % 65536 = n' / 12 % 65536 := by omega
  have hmonth : n % 12 = n' % 12 := by omega
  rw [ofNumber, ofNumber, Year.ofInt_congr hyear, Month.ofIndex_congr hmonth]

theorem number_ofNumber_emod (n : ℤ) : (ofNumber n).number % 786432 = n % 786432 := by
  have hyear := Year.toInt_ofInt_emod (n / 12)
  have hmonth := Month.index_ofIndex n
  change (12 * (Year.ofInt (n / 12)).toInt + (Month.ofIndex n).index) % 786432 = _
  omega

theorem ofNumber_add_congr {n x : ℤ} :
    ofNumber ((ofNumber n).number + x) = ofNumber (n + x) := by
  have h := number_ofNumber_emod n
  exact ofNumber_congr (by omega)

end YearMonth

/-! ## The operators -/

theorem int32_eq_some_iff {x y : ℤ} :
    int32 x = some y ↔ (-2147483648 ≤ x ∧ x < 2147483648) ∧ y = x := by
  rw [int32]
  split
  · rename_i h
    simp [eq_comm]
    omega
  · rename_i h
    simp
    omega

theorem months_ofNumber_count {x : ℤ} (h : Rep.int.Fits x) :
    (Duration.ofNumber months x).count = x :=
  IntegerType.convert_of_fits h

theorem years_ofNumber_count {x : ℤ} (h : Rep.int.Fits x) :
    (Duration.ofNumber years x).count = x :=
  IntegerType.convert_of_fits h

/-- No `int` operation on a month index overflows. -/
def InRange (dmi : ℤ) : Prop :=
  -2147483648 ≤ dmi ∧ dmi < 2147483648 ∧ (dmi < 0 → -2147483648 ≤ dmi - 11)

theorem YearMonth.add_of_inRange {lhs : YearMonth} {rhs : Duration months}
    (hok : lhs.month.ok = true) (hrange : InRange (lhs.month.index + rhs.count)) :
    lhs.add rhs = some (ofNumber (lhs.number + rhs.count)) := by
  obtain ⟨hlo, hhi⟩ := Month.index_bounds hok
  obtain ⟨hyear, hyear'⟩ := lhs.year.toInt_bounds
  have hfirst : int32 (lhs.month.toUnsigned.toInt - 1) = some lhs.month.index := by
    rw [Month.toInt_toUnsigned, Int.add_sub_cancel]
    exact int32_of_bounds (by omega) (by omega)
  rw [YearMonth.number]
  obtain ⟨hmin, hmax, hshift⟩ := hrange
  rw [YearMonth.add, hfirst, Option.bind_eq_bind, Option.bind_some,
    int32_of_bounds hmin hmax, Option.bind_eq_bind, Option.bind_some]
  generalize hdmi : lhs.month.index + rhs.count = dmi at hmin hmax hshift
  have hdividend : (if 0 ≤ dmi then some dmi else int32 (dmi - 11)) =
      some (if 0 ≤ dmi then dmi else dmi - 11) := by
    split
    · rfl
    · exact int32_of_bounds (hshift (by omega)) (by omega)
  have hdy : (if 0 ≤ dmi then dmi else dmi - 11).tdiv 12 = dmi / 12 :=
    @tdiv_shifted dmi 12 (by decide)
  have hproduct : int32 (dmi / 12 * 12) = some (dmi / 12 * 12) :=
    int32_of_bounds (by omega) (by omega)
  have hrest : int32 (dmi - dmi / 12 * 12) = some (dmi - dmi / 12 * 12) :=
    int32_of_bounds (by omega) (by omega)
  have hsum : int32 (dmi - dmi / 12 * 12 + 1) = some (dmi - dmi / 12 * 12 + 1) :=
    int32_of_bounds (by omega) (by omega)
  have hfits : Rep.int.Fits (dmi / 12) := by
    refine ⟨?_, ?_⟩
    · change (-2147483648 : ℤ) ≤ _
      omega
    · change _ ≤ (2147483647 : ℤ)
      omega
  have hadd : lhs.year.add (Duration.ofNumber years (dmi / 12)) =
      some (Year.ofInt (lhs.year.toInt + dmi / 12)) := by
    rw [Year.add, years_ofNumber_count hfits,
      int32_of_bounds (by omega) (by omega)]
    rfl
  simp only [hdividend, hdy, hproduct, hrest, hsum, hadd, Option.bind_some]
  rw [ofNumber, Month.ofInt_remainder (i := dmi) (by omega)]
  have hcarry : (12 * lhs.year.toInt + lhs.month.index + rhs.count) / 12 =
      lhs.year.toInt + dmi / 12 := by
    omega
  have hmonth : dmi % 12 =
      (12 * lhs.year.toInt + lhs.month.index + rhs.count) % 12 := by
    omega
  rw [hcarry, Month.ofIndex_congr hmonth]
  rfl

theorem YearMonth.add_eq_some_iff {lhs r : YearMonth} {rhs : Duration months}
    (hok : lhs.month.ok = true) :
    lhs.add rhs = some r ↔
      InRange (lhs.month.index + rhs.count) ∧
        r = ofNumber (lhs.number + rhs.count) := by
  constructor
  · intro h
    have hrange : InRange (lhs.month.index + rhs.count) := by
      rw [YearMonth.add, Month.toInt_toUnsigned, Int.add_sub_cancel] at h
      obtain ⟨first, hfirst, h⟩ := Option.bind_eq_some_iff.mp h
      obtain ⟨dmi, hdmi, h⟩ := Option.bind_eq_some_iff.mp h
      obtain ⟨dividend, hdividend, -⟩ := Option.bind_eq_some_iff.mp h
      obtain ⟨-, rfl⟩ := int32_eq_some_iff.mp hfirst
      obtain ⟨⟨hmin, hmax⟩, rfl⟩ := int32_eq_some_iff.mp hdmi
      refine ⟨hmin, hmax, ?_⟩
      intro hneg
      rw [if_neg (by omega)] at hdividend
      exact (int32_eq_some_iff.mp hdividend).1.1
    rw [YearMonth.add_of_inRange hok hrange] at h
    exact ⟨hrange, (Option.some.inj h).symm⟩
  · rintro ⟨hrange, rfl⟩
    exact YearMonth.add_of_inRange hok hrange

theorem int_fits_iff {x : ℤ} : Rep.int.Fits x ↔ -2147483648 ≤ x ∧ x ≤ 2147483647 :=
  Iff.rfl

theorem months_count_bounds (d : Duration months) :
    -2147483648 ≤ d.count ∧ d.count ≤ 2147483647 :=
  int_fits_iff.mp d.fits

theorem longLong_of_bounds {x : ℤ} (hlo : -4294967296 ≤ x) (hhi : x ≤ 4294967296) :
    Rep.longLong.type.arith x = some x := by
  apply IntegerType.arith_of_fits
  change (-9223372036854775808 : ℤ) ≤ x ∧ x ≤ (9223372036854775807 : ℤ)
  omega

theorem Month.add_of_fits {lhs : Month} {rhs : Duration months}
    (h : -2147483648 ≤ rhs.count - 1) :
    lhs.add rhs = some (Month.ofIndex (lhs.index + rhs.count)) := by
  obtain ⟨-, hmax⟩ := months_count_bounds rhs
  have hindex : -1 ≤ lhs.index ∧ lhs.index < 256 := by
    have hlt := lhs.m.isLt
    rw [Month.index]
    omega
  obtain ⟨hlo, hhi⟩ := hindex
  have hmu : (lhs.toUnsigned.toNat : ℤ) + (rhs.count - 1) = lhs.index + rhs.count := by
    rw [Month.toNat_toUnsigned]
    omega
  rw [Month.add, int32_of_bounds h (by omega), Option.bind_eq_bind, Option.bind_some,
    hmu, longLong_of_bounds (by omega) (by omega), Option.bind_some]
  generalize hsum : lhs.index + rhs.count = mu
  have hdividend :
      (if 0 ≤ mu then some mu else Rep.longLong.type.arith (mu - 11)) =
        some (if 0 ≤ mu then mu else mu - 11) := by
    split
    · rfl
    · exact longLong_of_bounds (by omega) (by omega)
  have hyr : (if 0 ≤ mu then mu else mu - 11).tdiv 12 = mu / 12 :=
    @tdiv_shifted mu 12 (by decide)
  have hproduct := @longLong_of_bounds (mu / 12 * 12) (by omega) (by omega)
  have hrest := @longLong_of_bounds (mu - mu / 12 * 12) (by omega) (by omega)
  have hm := @longLong_of_bounds (mu - mu / 12 * 12 + 1) (by omega) (by omega)
  simp only [hdividend, hyr, hproduct, hrest, hm, Option.bind_some]
  rw [Month.ofInt_remainder (i := mu) (by omega)]
  rfl

theorem Month.add_eq_some_iff {lhs r : Month} {rhs : Duration months} :
    lhs.add rhs = some r ↔
      -2147483648 ≤ rhs.count - 1 ∧ r = Month.ofIndex (lhs.index + rhs.count) := by
  constructor
  · intro h
    have hfits : -2147483648 ≤ rhs.count - 1 := by
      obtain ⟨step, hstep, -⟩ := Option.bind_eq_some_iff.mp h
      exact (int32_eq_some_iff.mp hstep).1.1
    rw [Month.add_of_fits hfits] at h
    exact ⟨hfits, (Option.some.inj h).symm⟩
  · rintro ⟨hfits, rfl⟩
    exact Month.add_of_fits hfits

theorem neg_eq_some_iff {T : DurationType} (hT : T.rep.promote = T.rep) {d r : Duration T} :
    d.neg = some r ↔ r.count = -d.count := by
  have hcount {x : ℤ} (hfits : T.rep.Fits x) : (Duration.ofNumber T x).count = x :=
    IntegerType.convert_of_fits hfits
  rw [Duration.neg, Option.map_eq_some_iff, hT]
  constructor
  · rintro ⟨x, hx, rfl⟩
    have hfits : T.rep.Fits (-d.count) := by
      by_contra h
      have hnone : T.rep.type.arith (-d.count) = none := if_neg h
      rw [hnone] at hx
      cases hx
    rw [IntegerType.arith_of_fits hfits] at hx
    rw [← Option.some.inj hx]
    exact hcount hfits
  · intro h
    have hfits : T.rep.Fits (-d.count) := h ▸ r.fits
    exact ⟨-d.count, IntegerType.arith_of_fits hfits, Duration.ext ((hcount hfits).trans h.symm)⟩

/-! ## Sums of years and months -/

/-- The whole number as a ratio. -/
def wholeRatio (n : ℤ) (hn : |n| ≤ Rational.max) : Rational.Ratio :=
  ⟨n, 1, Int.one_pos, Rational.max_pos, hn, isCoprime_one_right⟩

theorem operands_months :
    operands months months =
      .ok ⟨months, wholeRatio 1 (by decide), wholeRatio 1 (by decide)⟩ := by
  decide +kernel

theorem conversion_months :
    conversion months months = .ok (wholeRatio 1 (by decide)) := by
  decide +kernel

theorem operands_years_months :
    operands years months =
      .ok ⟨months, wholeRatio 12 (by decide), wholeRatio 1 (by decide)⟩ := by
  decide +kernel

/-- A conversion by a whole factor of a count that is small enough. -/
theorem durationCast_wholeRatio {T : DurationType} {n : ℤ} {hn : |n| ≤ Rational.max}
    (d : Duration T) (h : Rep.int.Fits (d.count * n)) :
    durationCast (wholeRatio n hn) months d = some ⟨d.count * n, h⟩ :=
  durationCast_eq rfl h

theorem int_arith_eq (x : ℤ) : Rep.int.type.arith x = int32 x := by
  by_cases hfits : Rep.int.Fits x
  · have hbounds := int_fits_iff.mp hfits
    rw [int32_of_bounds hbounds.1 (by omega)]
    exact IntegerType.arith_of_fits hfits
  · have hnone : Rep.int.type.arith x = none := if_neg hfits
    rw [hnone, int32, if_neg]
    rw [int_fits_iff] at hfits
    omega

/-- The sum of counts in months is a checked sum. -/
theorem add_counts {T U : DurationType} {left right : Rational.Ratio}
    {lhs : Duration T} {rhs : Duration U}
    (hops : operands T U = .ok ⟨months, left, right⟩)
    (hleft : left.den = 1) (hright : right.den = 1)
    (hlhs : Rep.int.Fits (lhs.count * left.num))
    (hrhs : Rep.int.Fits (rhs.count * right.num)) :
    Chrono.add lhs rhs =
      .ok ((int32 (lhs.count * left.num + rhs.count * right.num)).map fun x =>
        ⟨months, Duration.ofNumber months x⟩) := by
  rw [Chrono.add, combine, hops, Rational.ok_bind, Operands.counts,
    durationCast_eq (C := months) hleft hlhs, durationCast_eq (C := months) hright hrhs,
    ← int_arith_eq]
  change Except.ok (Option.bind (Rep.int.type.arith _) _) = _
  cases Rep.int.type.arith (lhs.count * left.num + rhs.count * right.num) with
  | none => rfl
  | some x => rfl

/-- The result of a checked sum of months. -/
theorem sum_eq_some_iff {x : ℤ} {c : Duration months} :
    ((int32 x).map fun x => (⟨months, Duration.ofNumber months x⟩ :
      (C : DurationType) × Duration C)) = some ⟨months, c⟩ ↔ c.count = x := by
  rw [Option.map_eq_some_iff]
  constructor
  · rintro ⟨y, hy, hc⟩
    obtain ⟨⟨hlo, hhi⟩, rfl⟩ := int32_eq_some_iff.mp hy
    rw [← eq_of_heq (Sigma.mk.inj hc).2]
    exact months_ofNumber_count (int_fits_iff.mpr (by omega))
  · rintro rfl
    obtain ⟨hlo, hhi⟩ := months_count_bounds c
    refine ⟨c.count, int32_of_bounds hlo (by omega), ?_⟩
    exact congrArg (Sigma.mk months) (Duration.ext (months_ofNumber_count c.fits))

theorem add_months_eq_some_iff {a b c : Duration months} :
    Chrono.add a b = .ok (some ⟨months, c⟩) ↔ c.count = a.count + b.count := by
  have ha : Rep.int.Fits (a.count * 1) := (mul_one a.count).symm ▸ a.fits
  have hb : Rep.int.Fits (b.count * 1) := (mul_one b.count).symm ▸ b.fits
  have hrun := add_counts operands_months rfl rfl ha hb
  change _ = Except.ok ((int32 (a.count * 1 + b.count * 1)).map _) at hrun
  rw [hrun, mul_one, mul_one, Except.ok.injEq]
  exact sum_eq_some_iff

theorem Year.difference_eq (lhs rhs : Year) :
    ∃ dy, lhs.difference rhs = some dy ∧ dy.count = lhs.toInt - rhs.toInt := by
  obtain ⟨hlo, hhi⟩ := lhs.toInt_bounds
  obtain ⟨hlo', hhi'⟩ := rhs.toInt_bounds
  refine ⟨Duration.ofNumber years (lhs.toInt - rhs.toInt), ?_, ?_⟩
  · rw [Year.difference, int32_of_bounds (by omega) (by omega)]
    rfl
  · exact years_ofNumber_count (int_fits_iff.mpr (by omega))

/-- The difference of two months as a number of months, which wraps around in
`unsigned` and comes back in `int`. -/
theorem count_unsigned_difference {lhs rhs : Month} (hlhs : lhs.ok = true)
    (hrhs : rhs.ok = true) :
    (Duration.ofNumber months (lhs.toUnsigned - rhs.toUnsigned).toNat).count =
      lhs.index - rhs.index := by
  obtain ⟨hlo, hhi⟩ := Month.index_bounds hlhs
  obtain ⟨hlo', hhi'⟩ := Month.index_bounds hrhs
  have hl := Month.toNat_toUnsigned lhs
  have hr := Month.toNat_toUnsigned rhs
  have hfits : Rep.int.Fits (lhs.index - rhs.index) :=
    int_fits_iff.mpr (by omega)
  have hwrapped : ((lhs.toUnsigned - rhs.toUnsigned).toNat : ℤ) =
      (lhs.index - rhs.index) % 2 ^ 32 := by
    rw [BitVec.toNat_sub]
    omega
  rw [← months_ofNumber_count hfits, hwrapped]
  exact IntegerType.convert_congr (T := Rep.int.type)
    (Int.emod_emod_of_dvd _ (dvd_refl _))

theorem YearMonth.difference_eq {lhs rhs : YearMonth} (hlhs : lhs.month.ok = true)
    (hrhs : rhs.month.ok = true) :
    ∃ d, lhs.difference rhs = .ok (some d) ∧ d.count = lhs.number - rhs.number := by
  obtain ⟨hlo, hhi⟩ := Month.index_bounds hlhs
  obtain ⟨hlo', hhi'⟩ := Month.index_bounds hrhs
  obtain ⟨hyear, hyear'⟩ := lhs.year.toInt_bounds
  obtain ⟨hyear₂, hyear₂'⟩ := rhs.year.toInt_bounds
  obtain ⟨dy, hdy, hcount⟩ := Year.difference_eq lhs.year rhs.year
  have hdm := count_unsigned_difference hlhs hrhs
  generalize hmonths : Duration.ofNumber months
    (lhs.month.toUnsigned - rhs.month.toUnsigned).toNat = dm at hdm
  have hleft : Rep.int.Fits (dy.count * 12) := int_fits_iff.mpr (by omega)
  have hright : Rep.int.Fits (dm.count * 1) := int_fits_iff.mpr (by omega)
  have hsum := add_counts operands_years_months rfl rfl hleft hright
  have htotal : dy.count * 12 + dm.count * 1 = lhs.number - rhs.number := by
    rw [YearMonth.number, YearMonth.number]
    omega
  have hfits : Rep.int.Fits (lhs.number - rhs.number) := by
    rw [int_fits_iff, YearMonth.number, YearMonth.number]
    omega
  change _ = Except.ok ((int32 (dy.count * 12 + dm.count * 1)).map _) at hsum
  rw [htotal, ← int_arith_eq, IntegerType.arith_of_fits hfits] at hsum
  have hone : (Duration.ofNumber months (lhs.number - rhs.number)).count * 1 =
      lhs.number - rhs.number := by
    rw [mul_one]
    exact months_ofNumber_count hfits
  refine ⟨⟨_, hone.symm ▸ hfits⟩, ?_, hone⟩
  rw [YearMonth.difference, operands_years_months, Rational.ok_bind, conversion_months,
    Rational.ok_bind, hdy, hmonths]
  change (Chrono.add dy dm >>= _) = _
  rw [hsum]
  rw [← @durationCast_wholeRatio _ 1 (by decide)
    (Duration.ofNumber months (lhs.number - rhs.number)) (hone.symm ▸ hfits)]
  rfl

theorem Month.difference_count {lhs rhs : Month} (hlhs : lhs.ok = true)
    (hrhs : rhs.ok = true) :
    (lhs.difference rhs).count = (lhs.index - rhs.index) % 12 := by
  obtain ⟨hlo, hhi⟩ := Month.index_bounds hlhs
  obtain ⟨hlo', hhi'⟩ := Month.index_bounds hrhs
  have hl := Month.toNat_toUnsigned lhs
  have hr := Month.toNat_toUnsigned rhs
  have hnat : (if lhs.toUnsigned - rhs.toUnsigned ≤ 11 then lhs.toUnsigned - rhs.toUnsigned
      else lhs.toUnsigned - rhs.toUnsigned + 12).toNat =
        ((lhs.index - rhs.index) % 12 : ℤ) := by
    have hwrapped := BitVec.toNat_sub lhs.toUnsigned rhs.toUnsigned
    split
    · rename_i hle
      have hle' : (lhs.toUnsigned - rhs.toUnsigned).toNat ≤ 11 := hle
      omega
    · rename_i hgt
      have hgt' : ¬ (lhs.toUnsigned - rhs.toUnsigned).toNat ≤ 11 := hgt
      rw [BitVec.toNat_add]
      have htwelve : (12 : BitVec 32).toNat = 12 := rfl
      omega
  rw [Month.difference, months_ofNumber_count, hnat]
  rw [hnat]
  exact int_fits_iff.mpr (by omega)

/-! ## The laws -/

theorem YearMonth.add_eq_some {lhs r : YearMonth} {rhs : Duration months}
    (hok : lhs.month.ok = true) (h : lhs.add rhs = some r) :
    r = ofNumber (lhs.number + rhs.count) :=
  ((YearMonth.add_eq_some_iff hok).mp h).2

theorem YearMonth.sub_eq_some {lhs r : YearMonth} {rhs : Duration months}
    (hok : lhs.month.ok = true) (h : lhs.sub rhs = some r) :
    r = ofNumber (lhs.number - rhs.count) := by
  obtain ⟨d, hneg, hadd⟩ := Option.bind_eq_some_iff.mp h
  rw [YearMonth.add_eq_some hok hadd, (neg_eq_some_iff rfl).mp hneg, Int.sub_eq_add_neg]

theorem Month.sub_eq_some {lhs r : Month} {rhs : Duration months}
    (h : lhs.sub rhs = some r) : r = Month.ofIndex (lhs.index - rhs.count) := by
  obtain ⟨d, hneg, hadd⟩ := Option.bind_eq_some_iff.mp h
  rw [(Month.add_eq_some_iff.mp hadd).2, (neg_eq_some_iff rfl).mp hneg, Int.sub_eq_add_neg]

theorem YearMonth.month_ok {ym : YearMonth} (hok : ym.ok = true) :
    ym.month.ok = true := by
  rw [YearMonth.ok, Bool.and_eq_true] at hok
  exact hok.2

theorem YearMonth.month_ok_ofNumber (n : ℤ) : (ofNumber n).month.ok = true :=
  Month.ok_ofIndex n

/-- The sum of a month and the difference of another one to it. -/
theorem YearMonth.add_difference {ym ym' : YearMonth} (hok : ym.month.ok = true)
    (hok' : ym'.month.ok = true) :
    ∃ d, ym.difference ym' = .ok (some d) ∧ ym'.add d = some ym := by
  obtain ⟨d, hd, hcount⟩ := YearMonth.difference_eq hok hok'
  refine ⟨d, hd, (YearMonth.add_eq_some_iff hok').mpr ⟨?_, ?_⟩⟩
  · obtain ⟨hlo, hhi⟩ := Month.index_bounds hok
    obtain ⟨hlo', hhi'⟩ := Month.index_bounds hok'
    obtain ⟨hyear, hyear'⟩ := ym.year.toInt_bounds
    obtain ⟨hyear₂, hyear₂'⟩ := ym'.year.toInt_bounds
    rw [YearMonth.number, YearMonth.number] at hcount
    rw [InRange]
    omega
  · rw [hcount, Int.add_comm, Int.sub_add_cancel, YearMonth.ofNumber_number hok]

theorem Month.add_difference {m₁ m₂ : Month} (h₁ : m₁.ok = true) (h₂ : m₂.ok = true) :
    m₂.add (m₁.difference m₂) = some m₁ := by
  obtain ⟨hlo, hhi⟩ := Month.index_bounds h₁
  have hcount := Month.difference_count h₁ h₂
  have hindex : m₁.index % 12 = (m₂.index + (m₁.difference m₂).count) % 12 := by omega
  refine Month.add_eq_some_iff.mpr ⟨by omega, ?_⟩
  rw [← Month.ofIndex_congr hindex, Month.ofIndex_index h₁]

theorem Month.difference_unique {m₁ m₂ : Month} (h₁ : m₁.ok = true)
    (h₂ : m₂.ok = true) {d : Duration months} (hd : 0 ≤ d.count) (hd' : d.count ≤ 11)
    (hadd : m₂.add d = some m₁) : d = m₁.difference m₂ := by
  have hcount := Month.difference_count h₁ h₂
  have hindex := Month.index_ofIndex (m₂.index + d.count)
  rw [← (Month.add_eq_some_iff.mp hadd).2] at hindex
  apply Duration.ext
  omega

/-- Where no operation overflows, adding months to an accepted date is an
action of the integers, and the differences undo it. -/
theorem month_arithmetic (ym : YearMonth) (hok : ym.ok = true) (a b : Duration months) :
    (∀ r, ym.add a = some r →
      r.month.ok = true ∧
      (∀ m, ym.month.add a = some m → r.month = m) ∧
      (∀ s, r.sub a = some s → s = ym) ∧
      (∀ c s t, Chrono.add a b = .ok (some ⟨months, c⟩) → r.add b = some s →
        ym.add c = some t → s = t)) ∧
    (∀ ym' : YearMonth, ym'.ok = true →
      ∃ d, ym.difference ym' = .ok (some d) ∧ ym'.add d = some ym) ∧
    (∀ m₁ m₂ : Month, m₁.ok = true → m₂.ok = true →
      (0 ≤ (m₁.difference m₂).count ∧ (m₁.difference m₂).count ≤ 11 ∧
        m₂.add (m₁.difference m₂) = some m₁) ∧
      ∀ d : Duration months, 0 ≤ d.count → d.count ≤ 11 → m₂.add d = some m₁ →
        d = m₁.difference m₂) := by
  have hmonth := YearMonth.month_ok hok
  refine ⟨?_, ?_, ?_⟩
  · intro r hr
    obtain rfl := YearMonth.add_eq_some hmonth hr
    have hsum := YearMonth.month_ok_ofNumber (ym.number + a.count)
    refine ⟨hsum, ?_, ?_, ?_⟩
    · intro m hm
      rw [(Month.add_eq_some_iff.mp hm).2]
      apply Month.ofIndex_congr
      rw [YearMonth.number]
      omega
    · intro s hs
      have hback := YearMonth.ofNumber_add_congr (n := ym.number + a.count)
        (x := -a.count)
      rw [YearMonth.sub_eq_some hsum hs, Int.sub_eq_add_neg, hback,
        Int.add_neg_cancel_right, YearMonth.ofNumber_number hmonth]
    · intro c s t hc hs ht
      rw [YearMonth.add_eq_some hsum hs, YearMonth.add_eq_some hmonth ht,
        YearMonth.ofNumber_add_congr, add_months_eq_some_iff.mp hc, Int.add_assoc]
  · intro ym' hok'
    exact YearMonth.add_difference hmonth (YearMonth.month_ok hok')
  · intro m₁ m₂ h₁ h₂
    have hcount := Month.difference_count h₁ h₂
    refine ⟨⟨by omega, by omega, Month.add_difference h₁ h₂⟩, ?_⟩
    intro d hd hd' hadd
    exact Month.difference_unique h₁ h₂ hd hd' hadd

/-- Fourteen months before March 2024, and back. -/
theorem month_arithmetic_march :
    YearMonth.sub ⟨Year.ofInt 2023, Month.ofUnsigned 1⟩ ⟨-14, by decide⟩ =
      some ⟨Year.ofInt 2024, Month.ofUnsigned 3⟩ := by
  have hsub : ∃ s, YearMonth.sub ⟨Year.ofInt 2023, Month.ofUnsigned 1⟩
      ⟨-14, by decide⟩ = some s := ⟨⟨Year.ofInt 2024, Month.ofUnsigned 3⟩, by decide⟩
  obtain ⟨s, hs⟩ := hsub
  have h := ((month_arithmetic ⟨Year.ofInt 2024, Month.ofUnsigned 3⟩ (by decide)
    ⟨-14, by decide⟩ ⟨0, by decide⟩).1 ⟨Year.ofInt 2023, Month.ofUnsigned 1⟩
    (by decide)).2.2.1 s hs
  rw [hs, h]

/-! ## Compound assignment -/

/-- A month stays in its year, or comes to that month of a year that the field
cannot tell from it. -/
theorem YearMonth.same_year_iff {ym : YearMonth} (hok : ym.month.ok = true) (x : ℤ) :
    ym.year = (ofNumber (ym.number + x)).year ↔ (ym.month.index + x) % 786432 < 12 := by
  obtain ⟨hlo, hhi⟩ := Month.index_bounds hok
  have hcarry : (ym.number + x) / 12 = ym.year.toInt + (ym.month.index + x) / 12 := by
    rw [number]
    omega
  have hyear := Year.toInt_ofInt_emod ((ym.number + x) / 12)
  change ym.year = Year.ofInt ((ym.number + x) / 12) ↔ _
  constructor
  · intro h
    rw [← h] at hyear
    omega
  · intro h
    have hsame : (ym.number + x) / 12 % 65536 = ym.year.toInt % 65536 := by omega
    rw [Year.ofInt_congr hsame, Year.ofInt_toInt]

/-- Changing the month alone is right where the year does not change. -/
theorem YearMonth.with_month_eq_iff {ym : YearMonth} (hok : ym.month.ok = true) (x : ℤ) :
    (⟨ym.year, Month.ofIndex (ym.month.index + x)⟩ : YearMonth) =
        ofNumber (ym.number + x) ↔
      (ym.month.index + x) % 786432 < 12 := by
  rw [← YearMonth.same_year_iff hok]
  constructor
  · intro h
    exact congrArg (·.year) h
  · intro h
    have hmonth : (ym.month.index + x) % 12 = (ym.number + x) % 12 := by
      rw [number]
      omega
    rw [h, Month.ofIndex_congr hmonth]
    rfl

theorem YearMonth.addAssign_eq_some {lhs r : YearMonth} {rhs : Duration months}
    (h : lhs.addAssign rhs = some r) :
    r = ⟨lhs.year, Month.ofIndex (lhs.month.index + rhs.count)⟩ := by
  obtain ⟨m, hm, hr⟩ := Option.bind_eq_some_iff.mp h
  rw [← Option.some.inj hr, (Month.add_eq_some_iff.mp hm).2]

theorem YearMonth.subAssign_eq_some {lhs r : YearMonth} {rhs : Duration months}
    (h : lhs.subAssign rhs = some r) :
    r = ⟨lhs.year, Month.ofIndex (lhs.month.index - rhs.count)⟩ := by
  obtain ⟨m, hm, hr⟩ := Option.bind_eq_some_iff.mp h
  rw [← Option.some.inj hr, Month.sub_eq_some hm]

/-- Where no operation overflows, the compound assignments of `year_month` are
the binary operators exactly where the sum is in the year of the operand, up to
the `2 ^ 16` years of the field.  Those of the types with a day always are. -/
theorem yearMonth_compoundAssign_iff (ym : YearMonth) (hok : ym.month.ok = true)
    (m : Duration months) :
    (∀ r s, ym.addAssign m = some r → ym.add m = some s →
      (r = s ↔ (ym.month.index + m.count) % 786432 < 12)) ∧
    (∀ r s, ym.subAssign m = some r → ym.sub m = some s →
      (r = s ↔ (ym.month.index - m.count) % 786432 < 12)) ∧
    (∀ date : YearMonthDay,
      date.addAssign m = date.add m ∧ date.subAssign m = date.sub m) ∧
    (∀ date : YearMonthDayLast,
      date.addAssign m = date.add m ∧ date.subAssign m = date.sub m) ∧
    (∀ date : YearMonthWeekday,
      date.addAssign m = date.add m ∧ date.subAssign m = date.sub m) := by
  refine ⟨?_, ?_, ?_, ?_, ?_⟩
  · intro r s hr hs
    rw [YearMonth.addAssign_eq_some hr, YearMonth.add_eq_some hok hs]
    exact YearMonth.with_month_eq_iff hok m.count
  · intro r s hr hs
    rw [YearMonth.subAssign_eq_some hr, YearMonth.sub_eq_some hok hs]
    exact YearMonth.with_month_eq_iff hok (-m.count)
  · exact fun _ => ⟨rfl, rfl⟩
  · exact fun _ => ⟨rfl, rfl⟩
  · exact fun _ => ⟨rfl, rfl⟩

/-- One month after November 2023. -/
theorem yearMonth_compoundAssign_november :
    (⟨Year.ofInt 2023, Month.ofUnsigned 11⟩ : YearMonth).addAssign ⟨1, by decide⟩ =
      some ⟨Year.ofInt 2023, Month.ofUnsigned 12⟩ := by
  have hadd : (⟨Year.ofInt 2023, Month.ofUnsigned 11⟩ : YearMonth).add
      ⟨1, by decide⟩ = some ⟨Year.ofInt 2023, Month.ofUnsigned 12⟩ := by decide
  have hassign : ∃ r, (⟨Year.ofInt 2023, Month.ofUnsigned 11⟩ : YearMonth).addAssign
      ⟨1, by decide⟩ = some r := ⟨⟨Year.ofInt 2023, Month.ofUnsigned 12⟩, by decide⟩
  obtain ⟨r, hr⟩ := hassign
  have h := ((yearMonth_compoundAssign_iff ⟨Year.ofInt 2023, Month.ofUnsigned 11⟩
    (by decide) ⟨1, by decide⟩).1 r _ hr hadd).mpr (by decide)
  rw [hr, h]

/-- One month after December 2023. -/
theorem yearMonth_addAssign_ne_add :
    (⟨Year.ofInt 2023, Month.ofUnsigned 12⟩ : YearMonth).addAssign ⟨1, by decide⟩ =
        some ⟨Year.ofInt 2023, Month.ofUnsigned 1⟩ ∧
      (⟨Year.ofInt 2023, Month.ofUnsigned 12⟩ : YearMonth).add ⟨1, by decide⟩ =
        some ⟨Year.ofInt 2024, Month.ofUnsigned 1⟩ ∧
      (⟨Year.ofInt 2023, Month.ofUnsigned 1⟩ : YearMonth) ≠
        ⟨Year.ofInt 2024, Month.ofUnsigned 1⟩ :=
  ⟨by decide, by decide, by decide⟩

end Libhipcxx.Chrono
