import Libhipcxx.Chrono.Weekday

/-!
# Day fields that the month does not have

A `year_month_day` may keep any day from zero to 255.  The conversion to days
counts it from the first of the month; the conversion back gives the date that
is there, which is the same one if `ok` accepts it.
-/

namespace Libhipcxx.Chrono

open MachineInt Gregorian

/-! ## The order -/

def Year.lt (lhs rhs : Year) : Bool := lhs.toInt < rhs.toInt

def Month.lt (lhs rhs : Month) : Bool := lhs.toUnsigned < rhs.toUnsigned

def Day.lt (lhs rhs : Day) : Bool := lhs.toUnsigned < rhs.toUnsigned

def YearMonthDay.lt (lhs rhs : YearMonthDay) : Bool :=
  if lhs.year.lt rhs.year then true
  else if rhs.year.lt lhs.year then false
  else if lhs.month.lt rhs.month then true
  else if rhs.month.lt lhs.month then false
  else lhs.day.lt rhs.day

/-! ## Fields -/

theorem Day.ofUnsigned_toNat (day : Day) :
    Day.ofUnsigned (BitVec.ofNat 32 day.d.toNat) = day := by
  unfold Day.ofUnsigned
  rw [BitVec.setWidth_ofNat_of_le (by decide), BitVec.ofNat_toNat, BitVec.setWidth_eq]

/-- An accepted year and an accepted month, with any day. -/
theorem exists_date_fields {year : Year} {month : Month} (hyear : year.ok = true)
    (hmonth : month.ok = true) (day : Day) :
    ∃ (y : ℤ) (m d : ℕ), year = Year.ofInt y ∧
      month = Month.ofUnsigned (BitVec.ofNat 32 m) ∧
      day = Day.ofUnsigned (BitVec.ofNat 32 d) ∧
      -32767 ≤ y ∧ y ≤ 32767 ∧ 1 ≤ m ∧ m ≤ 12 ∧ d < 256 := by
  rw [year_ok_iff] at hyear
  simp only [Month.ok, Bool.and_eq_true, decide_eq_true_eq, BitVec.le_def] at hmonth
  refine ⟨year.toInt, month.m.toNat, day.d.toNat, ?_, (ofUnsigned_toNat month).symm,
    (Day.ofUnsigned_toNat day).symm, hyear.1, hyear.2, hmonth.1, hmonth.2, day.d.isLt⟩
  rw [Year.ofInt, Year.toInt, BitVec.ofInt_toInt]

theorem YearMonthDay.fields_ok {date : YearMonthDay} (hok : date.ok = some true) :
    date.year.ok = true ∧ date.month.ok = true := by
  by_contra hfields
  have hreject : (!date.year.ok || !date.month.ok) = true := by
    by_contra haccept
    simp only [Bool.or_eq_true, Bool.not_eq_true', not_or, Bool.not_eq_false] at haccept
    exact hfields haccept
  rw [YearMonthDay.ok, if_pos hreject] at hok
  cases hok

/-- The accepted dates are those of the calendar in the years of `year::ok`. -/
theorem YearMonthDay.exists_date {date : YearMonthDay} (hok : date.ok = some true) :
    ∃ x : Date, date = ofDate x ∧ -32767 ≤ x.year ∧ x.year ≤ 32767 := by
  obtain ⟨year, month, day⟩ := date
  obtain ⟨hyear, hmonth⟩ := YearMonthDay.fields_ok hok
  obtain ⟨y, m, d, rfl, rfl, rfl, hlo, hhi, hpos, hle, hday⟩ :=
    exists_date_fields hyear hmonth day
  obtain ⟨hday_pos, hday_le⟩ := (ok_iff hlo (by omega) hpos hle hday).mp hok
  exact ⟨⟨y, m, d, hpos, hle, hday_pos, hday_le⟩, rfl, hlo, hhi⟩

/-! ## From the first of the month -/

theorem dayNumber_eq_first (y : ℤ) (m d : ℕ) :
    dayNumber y m d = dayNumber y m 1 + (d - 1) := by
  unfold dayNumber
  omega

/-! ## Round trips -/

/-- To `sys_days` and back gives the same date. -/
def YearMonthDay.RoundTrips (date : YearMonthDay) : Prop :=
  ∃ n, toDays date = some n ∧ fromDays n = some date

theorem ofDate_eq_iff {x : Date} {y : ℤ} {m d : ℕ} (hlo : -32767 ≤ y)
    (hhi : y ≤ 32767) (hm : m ≤ 12) (hd : d < 256) (hx : -32768 ≤ x.year)
    (hx' : x.year ≤ 32768) :
    ofDate x = ⟨Year.ofInt y, Month.ofUnsigned (BitVec.ofNat 32 m),
      Day.ofUnsigned (BitVec.ofNat 32 d)⟩ ↔ x.year = y ∧ x.month = m ∧ x.day = d := by
  constructor
  · intro h
    rw [ofDate, YearMonthDay.mk.injEq] at h
    obtain ⟨hyear, hmonth, hday⟩ := h
    refine ⟨year_eq_of_ofInt hlo hhi hx hx' hyear,
      month_eq_of_ofUnsigned x.month_le hm hmonth, ?_⟩
    have hfield := congrArg (fun day : Day => day.toUnsigned.toNat) hday
    have hlt := day_lt x
    simp only [toUnsigned_day hlt, toUnsigned_day hd] at hfield
    rwa [toNat_ofNat_of_lt (by omega), toNat_ofNat_of_lt (by omega)] at hfield
  · rintro ⟨rfl, rfl, rfl⟩
    rfl

/-- A date comes back if its month has the day. -/
theorem roundTrips_iff {y : ℤ} {m d : ℕ} (hlo : -32767 ≤ y) (hhi : y ≤ 32767)
    (hpos : 1 ≤ m) (hle : m ≤ 12) (hday : d < 256) :
    YearMonthDay.RoundTrips ⟨Year.ofInt y, Month.ofUnsigned (BitVec.ofNat 32 m),
      Day.ofUnsigned (BitVec.ofNat 32 d)⟩ ↔ 1 ≤ d ∧ d ≤ monthLength y m := by
  obtain ⟨hmin, hmax⟩ := dayNumber_bounds hlo hhi hpos hle
  have hfirst := dayNumber_eq_first y m d
  have hdays := toDays_eq (show -32768 ≤ y by omega) (by omega) hpos hle hday
  have hback := @fromDays_eq (dayNumber y m d) (by omega) (by omega)
  have hstart : january (-32768) = -12687794 := by decide
  have hend : january (32768 + 1) = 11249104 := by decide
  obtain ⟨hyear, hyear'⟩ := @ofNumber_year_bounds (-32768) 32768 (dayNumber y m d)
    (by omega) (by omega)
  have hsame := @ofDate_eq_iff (Date.ofNumber (dayNumber y m d)) y m d hlo hhi hle hday
    hyear hyear'
  have hreturns : YearMonthDay.RoundTrips ⟨Year.ofInt y,
      Month.ofUnsigned (BitVec.ofNat 32 m), Day.ofUnsigned (BitVec.ofNat 32 d)⟩ ↔
        (Date.ofNumber (dayNumber y m d)).year = y ∧
          (Date.ofNumber (dayNumber y m d)).month = m ∧
          (Date.ofNumber (dayNumber y m d)).day = d := by
    rw [← hsame, YearMonthDay.RoundTrips, hdays]
    simp only [Option.some.injEq, exists_eq_left', hback]
  rw [hreturns]
  constructor
  · rintro ⟨hy, hm, hd⟩
    have hday_pos := (Date.ofNumber (dayNumber y m d)).day_pos
    have hday_le := (Date.ofNumber (dayNumber y m d)).day_le
    rw [hy, hm, hd] at hday_le
    rw [hd] at hday_pos
    exact ⟨hday_pos, hday_le⟩
  · rintro ⟨hday_pos, hday_le⟩
    have hdate : Date.ofNumber (dayNumber y m d) =
        ⟨y, m, d, hpos, hle, hday_pos, hday_le⟩ :=
      number_injective (number_ofNumber _)
    rw [hdate]
    exact ⟨rfl, rfl, rfl⟩

/-! ## The order of day counts -/

theorem lt_ofDate_iff {x x' : Date} (hlo : -32767 ≤ x.year) (hhi : x.year ≤ 32767)
    (hlo' : -32767 ≤ x'.year) (hhi' : x'.year ≤ 32767) :
    (ofDate x).lt (ofDate x') = true ↔ x.Before x' := by
  have hmonth := x.month_le
  have hmonth' := x'.month_le
  have hday := day_lt x
  have hday' := day_lt x'
  have hyears (x x' : Date) (hlo : -32767 ≤ x.year) (hhi : x.year ≤ 32767)
      (hlo' : -32767 ≤ x'.year) (hhi' : x'.year ≤ 32767) :
      (ofDate x).year.lt (ofDate x').year = decide (x.year < x'.year) := by
    rw [Year.lt, ofDate, ofDate, toInt_year (by omega) (by omega),
      toInt_year (by omega) (by omega)]
  have hmonths (x x' : Date) :
      (ofDate x).month.lt (ofDate x').month = decide (x.month < x'.month) := by
    have hle := x.month_le
    have hle' := x'.month_le
    rw [Month.lt, month_ofDate, month_ofDate]
    exact decide_eq_decide.mpr (ofNat_lt_ofNat (by omega) (by omega))
  have hdays : (ofDate x).day.lt (ofDate x').day = decide (x.day < x'.day) := by
    rw [Day.lt, day_ofDate, day_ofDate]
    exact decide_eq_decide.mpr (ofNat_lt_ofNat (by omega) (by omega))
  rw [YearMonthDay.lt, hyears x x' hlo hhi hlo' hhi', hyears x' x hlo' hhi' hlo hhi,
    hmonths, hmonths, hdays, Date.Before]
  simp only [decide_eq_true_eq]
  split_ifs <;> simp <;> omega

/-- For an accepted year and an accepted month, any day field is counted from
the first of the month, and comes back if the date is accepted.  Day counts of
accepted dates are in their order. -/
theorem yearMonthDay_toDays (year : Year) (month : Month) (day : Day)
    (hyear : year.ok = true) (hmonth : month.ok = true) :
    (∃ first, toDays ⟨year, month, Day.ofUnsigned 1⟩ = some first ∧
      toDays ⟨year, month, day⟩ = some (first + (day.toUnsigned.toNat - 1))) ∧
    (YearMonthDay.ok ⟨year, month, day⟩ = some true ↔
      YearMonthDay.RoundTrips ⟨year, month, day⟩) ∧
    (∀ date date' : YearMonthDay, date.ok = some true → date'.ok = some true →
      ∃ n n', toDays date = some n ∧ toDays date' = some n' ∧
        (date.lt date' = true ↔ n < n')) := by
  obtain ⟨y, m, d, rfl, rfl, rfl, hlo, hhi, hpos, hle, hday⟩ :=
    exists_date_fields hyear hmonth day
  refine ⟨?_, ?_, ?_⟩
  · refine ⟨dayNumber y m 1, toDays_eq (d := 1) (by omega) (by omega) hpos hle
      (by decide), ?_⟩
    rw [toDays_eq (by omega) (by omega) hpos hle hday, toUnsigned_day hday,
      toNat_ofNat_of_lt (by omega), dayNumber_eq_first]
  · rw [ok_iff hlo (by omega) hpos hle hday, roundTrips_iff hlo hhi hpos hle hday]
  · intro date date' hok hok'
    obtain ⟨x, rfl, hlo₁, hhi₁⟩ := YearMonthDay.exists_date hok
    obtain ⟨x', rfl, hlo₂, hhi₂⟩ := YearMonthDay.exists_date hok'
    refine ⟨x.number, x'.number, toDays_ofDate x (by omega) (by omega),
      toDays_ofDate x' (by omega) (by omega), ?_⟩
    rw [lt_ofDate_iff hlo₁ hhi₁ hlo₂ hhi₂, number_lt_iff]

/-- The day zero of March 2024 is counted as the leap day before it. -/
theorem yearMonthDay_toDays_zero :
    toDays ⟨Year.ofInt 2024, Month.ofUnsigned 3, Day.ofUnsigned 0⟩ = some 19782 ∧
      ¬ YearMonthDay.RoundTrips
        ⟨Year.ofInt 2024, Month.ofUnsigned 3, Day.ofUnsigned 0⟩ := by
  have h := yearMonthDay_toDays (Year.ofInt 2024) (Month.ofUnsigned 3)
    (Day.ofUnsigned 0) (by decide) (by decide)
  refine ⟨by decide, ?_⟩
  rw [← h.2.1]
  decide

end Libhipcxx.Chrono
