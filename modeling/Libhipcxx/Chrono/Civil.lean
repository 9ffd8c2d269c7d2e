import Libhipcxx.Chrono.Calendar
import Libhipcxx.Support.Gregorian

/-!
# The days of chrono are the days of the calendar

The day count of a `year_month_day` is the number of a date of the proleptic
Gregorian calendar, for the years that `year::ok` accepts.
-/

namespace Libhipcxx.Chrono

open MachineInt Gregorian

/-! ## The unsigned steps -/

theorem yoe_ofNat {n : ℕ} (h : n ≤ 146096) :
    yoe (BitVec.ofNat 32 n) = BitVec.ofNat 32 (yearOfDay n) := by
  change (BitVec.ofNat 32 n - BitVec.ofNat 32 n / BitVec.ofNat 32 1460 +
    BitVec.ofNat 32 n / BitVec.ofNat 32 36524 -
    BitVec.ofNat 32 n / BitVec.ofNat 32 146096) / BitVec.ofNat 32 365 = _
  have hn : n < 2 ^ 32 := by omega
  have hgroup : n / 1460 ≤ n := Nat.div_le_self _ _
  have hera : n / 146096 ≤ n / 36524 := Nat.div_le_div_left (by decide) (by decide)
  rw [ofNat_div hn (by decide), ofNat_div hn (by decide), ofNat_div hn (by decide),
    ofNat_sub hn hgroup, ← BitVec.ofNat_add, ofNat_sub (by omega) (by omega),
    ofNat_div (by omega) (by decide)]
  rfl

theorem doy_ofNat {n : ℕ} (h : n ≤ 146096) :
    doy (BitVec.ofNat 32 n) =
      BitVec.ofNat 32 (n - daysBeforeYear (yearOfDay n)) := by
  obtain ⟨hyear, hbefore, -, -⟩ := yearOfDay_spec h
  unfold doy
  rw [yoe_ofNat h]
  unfold daysBeforeYear at hbefore ⊢
  generalize yearOfDay n = y at hyear hbefore
  change BitVec.ofNat 32 n - (BitVec.ofNat 32 365 * BitVec.ofNat 32 y +
    BitVec.ofNat 32 y / BitVec.ofNat 32 4 -
    BitVec.ofNat 32 y / BitVec.ofNat 32 100) = _
  have hy : y < 2 ^ 32 := by omega
  have hcentury : y / 100 ≤ y / 4 := Nat.div_le_div_left (by decide) (by decide)
  rw [ofNat_div hy (by decide), ofNat_div hy (by decide), ← BitVec.ofNat_mul,
    ← BitVec.ofNat_add, ofNat_sub (by omega) (by omega),
    ofNat_sub (by omega) hbefore]

theorem mp_ofNat {r : ℕ} (h : r ≤ 365) :
    mp (BitVec.ofNat 32 r) = BitVec.ofNat 32 (monthOfDay r) := by
  change (BitVec.ofNat 32 5 * BitVec.ofNat 32 r + BitVec.ofNat 32 2) /
    BitVec.ofNat 32 153 = _
  rw [← BitVec.ofNat_mul, ← BitVec.ofNat_add, ofNat_div (by omega) (by decide)]
  rfl

theorem dy_ofNat {r : ℕ} (h : r ≤ 365) :
    dy (BitVec.ofNat 32 r) =
      BitVec.ofNat 32 (r - daysBeforeMonth (monthOfDay r) + 1) := by
  obtain ⟨hmonth, hbefore⟩ := monthOfDay_spec h
  unfold dy
  rw [mp_ofNat h]
  unfold daysBeforeMonth at hbefore ⊢
  generalize monthOfDay r = m at hmonth hbefore
  change BitVec.ofNat 32 r - (BitVec.ofNat 32 153 * BitVec.ofNat 32 m +
    BitVec.ofNat 32 2) / BitVec.ofNat 32 5 + BitVec.ofNat 32 1 = _
  rw [← BitVec.ofNat_mul, ← BitVec.ofNat_add, ofNat_div (by omega) (by decide),
    ofNat_sub (by omega) hbefore, ← BitVec.ofNat_add]

theorem mth_ofNat {m : ℕ} (h : m ≤ 11) :
    mth (BitVec.ofNat 32 m) = BitVec.ofNat 32 (monthAfterMarch m) := by
  interval_cases m <;> rfl

theorem month_le_two {m : ℕ} (h : m ≤ 11) :
    BitVec.ofNat 32 (monthAfterMarch m) ≤ 2 ↔ monthAfterMarch m ≤ 2 := by
  have hlt : monthAfterMarch m < 2 ^ 32 := by
    unfold monthAfterMarch
    split <;> omega
  exact ofNat_le_ofNat hlt (by decide)

/-- The day of the year; minus one for a day zero of March. -/
theorem marchDay_eq {m : ℕ} (hpos : 1 ≤ m) (hle : m ≤ 12) (d : ℕ) :
    marchDay (BitVec.ofNat 32 m) (BitVec.ofNat 32 d) =
      BitVec.ofInt 32 ((daysBeforeMonth (marchMonth m) + d : ℕ) - 1) := by
  have hmonth : BitVec.ofNat 32 m +
      BitVec.ofInt 32 (if BitVec.ofNat 32 m > 2 then -3 else 9) =
        BitVec.ofNat 32 (marchMonth m) := by
    interval_cases m <;> rfl
  have hle' : marchMonth m ≤ 11 := by
    unfold marchMonth
    split <;> omega
  unfold marchDay
  rw [hmonth]
  unfold daysBeforeMonth
  generalize marchMonth m = k at hle'
  change (BitVec.ofNat 32 153 * BitVec.ofNat 32 k + BitVec.ofNat 32 2) /
    BitVec.ofNat 32 5 + BitVec.ofNat 32 d - BitVec.ofNat 32 1 = _
  rw [← BitVec.ofNat_mul, ← BitVec.ofNat_add, ofNat_div (by omega) (by decide),
    ← BitVec.ofNat_add, Int.sub_eq_add_neg, BitVec.ofInt_add, BitVec.ofInt_neg,
    BitVec.ofInt_natCast, BitVec.sub_eq_add_neg]
  rfl

theorem doe_eq {y : ℕ} (hy : y ≤ 399) (r : ℤ) :
    doe (BitVec.ofNat 32 y) (BitVec.ofInt 32 r) =
      BitVec.ofInt 32 (daysBeforeYear y + r) := by
  change BitVec.ofNat 32 y * BitVec.ofNat 32 365 +
    BitVec.ofNat 32 y / BitVec.ofNat 32 4 -
    BitVec.ofNat 32 y / BitVec.ofNat 32 100 + BitVec.ofInt 32 r = _
  have hlt : y < 2 ^ 32 := by omega
  have hcentury : y / 100 ≤ y / 4 := Nat.div_le_div_left (by decide) (by decide)
  rw [ofNat_div hlt (by decide), ofNat_div hlt (by decide), ← BitVec.ofNat_mul,
    ← BitVec.ofNat_add, ofNat_sub (by omega) (by omega), BitVec.ofInt_add,
    BitVec.ofInt_natCast]
  unfold daysBeforeYear
  rw [Nat.mul_comm y 365]

/-! ## The signed steps -/

/-- A date of the calendar as the fields of a `year_month_day`. -/
def ofDate (date : Date) : YearMonthDay where
  year := Year.ofInt date.year
  month := Month.ofUnsigned (BitVec.ofNat 32 date.month)
  day := Day.ofUnsigned (BitVec.ofNat 32 date.day)

theorem era_eq (d : ℤ) :
    (if 0 ≤ d + 719468 then d + 719468 else d + 719468 - 146096).tdiv 146097 =
      era d :=
  @tdiv_shifted (d + 719468) 146097 (by decide)

/-- No step overflows as long as the first one does not. -/
theorem fromDays_eq {d : ℤ} (hlo : -2147483648 ≤ d) (hhi : d < 2146764180) :
    fromDays d = some (ofDate (Date.ofNumber d)) := by
  have hdoe := dayOfEra_le d
  have hsplit := era_dayOfEra d
  obtain ⟨hyear, -, hrest, -⟩ := yearOfDay_spec hdoe
  obtain ⟨hmonth, -⟩ := monthOfDay_spec hrest
  have hz : int32 (d + 719468) = some (d + 719468) :=
    int32_of_bounds (by omega) (by omega)
  have hdividend := @int32_shifted (d + 719468) 146096 (by omega) (by decide)
  have heraDays : int32 (era d * 146097) = some (era d * 146097) :=
    int32_of_bounds (by omega) (by omega)
  have hdifference : d + 719468 - era d * 146097 = (dayOfEra d : ℤ) := by omega
  have hdoeInt : int32 (dayOfEra d : ℤ) = some (dayOfEra d : ℤ) :=
    int32_of_bounds (by omega) (by omega)
  have heraYears : int32 (era d * 400) = some (era d * 400) :=
    int32_of_bounds (by omega) (by omega)
  have hyr : int32 ((yearOfDay (dayOfEra d) : ℤ) + era d * 400) =
      some ((yearOfDay (dayOfEra d) : ℤ) + era d * 400) :=
    int32_of_bounds (by omega) (by omega)
  have hyearInt : (BitVec.ofNat 32 (yearOfDay (dayOfEra d))).toInt =
      (yearOfDay (dayOfEra d) : ℤ) := toInt_ofNat_of_lt (by omega)
  have hyear' : int32 (Date.ofNumber d).year = some (Date.ofNumber d).year := by
    have hyear_le := ofNumber_marchYear d
    unfold marchYear at hyear_le
    split at hyear_le
    · exact int32_of_bounds (by omega) (by omega)
    · exact int32_of_bounds (by omega) (by omega)
  simp only [fromDays, hz, Option.bind_eq_bind, Option.bind_some, hdividend, era_eq,
    heraDays, hdifference, hdoeInt, BitVec.ofInt_natCast, yoe_ofNat hdoe,
    doy_ofNat hdoe, heraYears, hyearInt, hyr, mp_ofNat hrest, dy_ofNat hrest,
    mth_ofNat hmonth, month_le_two hmonth]
  have hdate : (yearOfDay (dayOfEra d) : ℤ) + era d * 400 +
      (if monthAfterMarch (monthOfDay (dayOfYear d)) ≤ 2 then 1 else 0) =
        (Date.ofNumber d).year := rfl
  rw [← dayOfYear, hdate, hyear']
  rfl

/-! ## The way back -/

theorem toUnsigned_month {m : ℕ} (h : m < 2 ^ 8) :
    (Month.ofUnsigned (BitVec.ofNat 32 m)).toUnsigned = BitVec.ofNat 32 m := by
  unfold Month.ofUnsigned Month.toUnsigned
  rw [BitVec.setWidth_ofNat_of_le (by decide),
    BitVec.setWidth_ofNat_of_le_of_lt (by decide) h]

theorem toUnsigned_day {d : ℕ} (h : d < 2 ^ 8) :
    (Day.ofUnsigned (BitVec.ofNat 32 d)).toUnsigned = BitVec.ofNat 32 d := by
  unfold Day.ofUnsigned Day.toUnsigned
  rw [BitVec.setWidth_ofNat_of_le (by decide),
    BitVec.setWidth_ofNat_of_le_of_lt (by decide) h]

theorem toInt_year {y : ℤ} (hlo : -32768 ≤ y) (hhi : y < 32768) :
    (Year.ofInt y).toInt = y :=
  BitVec.toInt_ofInt_eq_self (by decide) (by omega) (by omega)

theorem monthLength_le (y : ℤ) (m : ℕ) : monthLength y m ≤ 31 := by
  have hleap := leapDay_le y
  unfold monthLength
  split <;> omega

theorem yearEra_eq (y : ℤ) :
    (if 0 ≤ y then y else y - 399).tdiv 400 = y / 400 :=
  @tdiv_shifted y 400 (by decide)

theorem marchYear_eq (y : ℤ) {m : ℕ} (h : m < 2 ^ 8) :
    (y - if BitVec.ofNat 32 m ≤ february.toUnsigned then 1 else 0) =
      marchYear y m := by
  have htwo : BitVec.ofNat 32 m ≤ february.toUnsigned ↔ m ≤ 2 :=
    @ofNat_le_ofNat 32 m 2 (by omega) (by decide)
  unfold marchYear
  split
  · rw [if_pos (htwo.mp ‹_›)]
  · rw [if_neg fun hle => ‹¬ _› (htwo.mpr hle), Int.sub_zero]

/-- A day field is counted from the first of its month, whether or not the
month has that day. -/
theorem toDays_eq {y : ℤ} {m d : ℕ} (hlo : -32768 ≤ y) (hhi : y < 32768)
    (hpos : 1 ≤ m) (hle : m ≤ 12) (hday : d < 256) :
    toDays ⟨Year.ofInt y, Month.ofUnsigned (BitVec.ofNat 32 m),
      Day.ofUnsigned (BitVec.ofNat 32 d)⟩ = some (dayNumber y m d) := by
  have hbefore := daysBeforeMonth_le hle
  have hnumber := dayNumber_eq_march y hpos hle d
  have hyear_bounds : -32769 ≤ marchYear y m ∧ marchYear y m < 32768 := by
    unfold marchYear
    split <;> omega
  obtain ⟨k, hk_le, hdifference, hmarch⟩ := exists_march_era (marchYear y m)
  have hdays := daysBeforeYear_le hk_le
  have hyr : int32 (marchYear y m) = some (marchYear y m) :=
    int32_of_bounds (by omega) (by omega)
  have hdividend := @int32_shifted (marchYear y m) 399 (by omega) (by decide)
  have heraYears : int32 (marchYear y m / 400 * 400) =
      some (marchYear y m / 400 * 400) := int32_of_bounds (by omega) (by omega)
  have hrest : int32 (k : ℤ) = some (k : ℤ) := int32_of_bounds (by omega) (by omega)
  have heraDays : int32 (marchYear y m / 400 * 146097) =
      some (marchYear y m / 400 * 146097) := int32_of_bounds (by omega) (by omega)
  have hdoe : (BitVec.ofInt 32 (daysBeforeYear k +
      ((daysBeforeMonth (marchMonth m) + d : ℕ) - 1))).toInt =
        daysBeforeYear k + ((daysBeforeMonth (marchMonth m) + d : ℕ) - 1) :=
    BitVec.toInt_ofInt_eq_self (by decide) (by omega) (by omega)
  simp only [toDays, toInt_year hlo hhi, Option.bind_eq_bind,
    toUnsigned_month (show m < 2 ^ 8 by omega), toUnsigned_day hday,
    marchYear_eq y (show m < 2 ^ 8 by omega), hyr, Option.bind_some, hdividend,
    yearEra_eq, heraYears, hdifference, hrest, BitVec.ofInt_natCast,
    marchDay_eq hpos hle, doe_eq hk_le, heraDays, hdoe]
  have hsum : marchYear y m / 400 * 146097 +
      (daysBeforeYear k + ((daysBeforeMonth (marchMonth m) + d : ℕ) - 1) : ℤ) =
        dayNumber y m d + 719468 := by omega
  rw [hsum, int32_of_bounds (by omega) (by omega), Option.bind_some]
  have hresult : dayNumber y m d + 719468 - 719468 = dayNumber y m d := by omega
  rw [hresult]
  exact int32_of_bounds (by omega) (by omega)

theorem day_lt (date : Date) : date.day < 256 := by
  have hday := date.day_le
  have hlength := monthLength_le date.year date.month
  omega

/-- A date of the calendar is the day with its number. -/
theorem toDays_ofDate (date : Date) (hlo : -32768 ≤ date.year)
    (hhi : date.year < 32768) :
    toDays (ofDate date) = some date.number :=
  toDays_eq hlo hhi date.month_pos date.month_le (day_lt date)

/-! ## Accepted dates -/

theorem isLeap_ofInt {y : ℤ} (hlo : -32768 ≤ y) (hhi : y < 32768) :
    (Year.ofInt y).isLeap = isLeap y := by
  unfold Year.isLeap isLeap
  rw [toInt_year hlo hhi, Bool.eq_iff_iff]
  simp only [Bool.and_eq_true, Bool.or_eq_true, beq_iff_eq, bne_iff_ne, ne_eq,
    tmod_eq_zero_iff, decide_eq_true_eq]

/-- The table holds the length of every month but February. -/
theorem lastDay_of_ne_two (year : Year) (y : ℤ) {m : ℕ} (hpos : 1 ≤ m)
    (hle : m ≤ 12) (hm : m ≠ 2) :
    lastDay year (Month.ofUnsigned (BitVec.ofNat 32 m)) =
      some (Day.ofUnsigned (BitVec.ofNat 32 (monthLength y m))) := by
  have hne : Month.ofUnsigned (BitVec.ofNat 32 m) ≠ february := by
    interval_cases m <;> first | contradiction | decide
  rw [lastDay, if_pos (Or.inl hne)]
  interval_cases m <;> first | contradiction | rfl

theorem lastDay_february {y : ℤ} (hlo : -32768 ≤ y) (hhi : y < 32768) :
    lastDay (Year.ofInt y) february =
      some (Day.ofUnsigned (BitVec.ofNat 32 (monthLength y 2))) := by
  rw [lastDay, isLeap_ofInt hlo hhi, monthLength, leapDay]
  by_cases hleap : isLeap y = true
  · rw [if_neg (by simp [hleap]), if_pos hleap]
    rfl
  · rw [if_pos (Or.inr (by simpa using hleap)), if_neg hleap]
    rfl

/-- `year_month_day_last::day` is the length of the month. -/
theorem lastDay_eq {y : ℤ} {m : ℕ} (hlo : -32768 ≤ y) (hhi : y < 32768)
    (hpos : 1 ≤ m) (hle : m ≤ 12) :
    lastDay (Year.ofInt y) (Month.ofUnsigned (BitVec.ofNat 32 m)) =
      some (Day.ofUnsigned (BitVec.ofNat 32 (monthLength y m))) := by
  by_cases hm : m = 2
  · rw [hm]
    exact lastDay_february hlo hhi
  · exact lastDay_of_ne_two _ _ hpos hle hm

theorem lastDay_ofDate (date : Date) (hlo : -32768 ≤ date.year)
    (hhi : date.year < 32768) :
    lastDay (ofDate date).year (ofDate date).month =
      some (Day.ofUnsigned (BitVec.ofNat 32 (monthLength date.year date.month))) :=
  lastDay_eq hlo hhi date.month_pos date.month_le

theorem ok_year {y : ℤ} (hlo : -32767 ≤ y) (hhi : y < 32768) :
    (Year.ofInt y).ok = true := by
  unfold Year.ok Year.min Year.max
  rw [toInt_year (by omega) hhi, toInt_year (by decide) (by decide),
    toInt_year (by decide) (by decide)]
  simp only [Bool.and_eq_true, decide_eq_true_eq]
  omega

theorem ok_month {m : ℕ} (hpos : 1 ≤ m) (hle : m ≤ 12) :
    (Month.ofUnsigned (BitVec.ofNat 32 m)).ok = true := by
  interval_cases m <;> rfl

/-- A date is accepted if its month has the day. -/
theorem ok_iff {y : ℤ} {m d : ℕ} (hlo : -32767 ≤ y) (hhi : y < 32768)
    (hpos : 1 ≤ m) (hle : m ≤ 12) (hday : d < 256) :
    YearMonthDay.ok ⟨Year.ofInt y, Month.ofUnsigned (BitVec.ofNat 32 m),
      Day.ofUnsigned (BitVec.ofNat 32 d)⟩ = some true ↔
        1 ≤ d ∧ d ≤ monthLength y m := by
  have hlength := monthLength_le y m
  have hfirst : (Day.ofUnsigned 1).toUnsigned ≤ BitVec.ofNat 32 d ↔ 1 ≤ d :=
    @ofNat_le_ofNat 32 1 d (by decide) (by omega)
  have hlast := @ofNat_le_ofNat 32 d (monthLength y m) (by omega) (by omega)
  simp only [YearMonthDay.ok, ok_year hlo hhi, ok_month hpos hle, Bool.not_true,
    Bool.or_self, Bool.false_eq_true, ↓reduceIte,
    lastDay_eq (show -32768 ≤ y by omega) hhi hpos hle, Option.bind_eq_bind,
    Option.bind_some, toUnsigned_day hday,
    toUnsigned_day (show monthLength y m < 2 ^ 8 by omega), Option.pure_def,
    Option.some.injEq, Bool.and_eq_true, decide_eq_true_eq, hfirst, hlast]

theorem ok_ofDate (date : Date) (hlo : -32767 ≤ date.year)
    (hhi : date.year < 32768) : (ofDate date).ok = some true :=
  (ok_iff hlo hhi date.month_pos date.month_le (day_lt date)).mpr
    ⟨date.day_pos, date.day_le⟩

end Libhipcxx.Chrono
