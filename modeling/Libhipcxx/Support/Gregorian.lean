import Mathlib.Algebra.Order.Group.Int
import Mathlib.Data.Int.ConditionallyCompleteOrder
import Mathlib.Order.Monotone.Basic
import Mathlib.Tactic.IntervalCases

/-!
# The proleptic Gregorian calendar

Dates as year, month and day with the proof that they exist, the date that
follows, and the number of days since the first of January 1970.  A year is an
integer; divisions are rounded down.

Counting from the first of March puts the leap day at the end of the year.
The days before a month of such a year are then `(153 * m + 2) / 5`, and the
year of a day in the era of 400 years is a quotient with three corrections.
-/

namespace Libhipcxx.Gregorian

def isLeap (y : ℤ) : Bool :=
  y % 4 = 0 ∧ (y % 100 ≠ 0 ∨ y % 400 = 0)

/-- Days of February beyond 28. -/
def leapDay (y : ℤ) : ℕ := if isLeap y then 1 else 0

/-- Days of month `m`, counted from one. -/
def monthLength (y : ℤ) : ℕ → ℕ
  | 2 => 28 + leapDay y
  | 4 | 6 | 9 | 11 => 30
  | _ => 31

/-- Days of the first `m` months. -/
def daysOfMonths (y : ℤ) : ℕ → ℕ
  | 0 => 0
  | m + 1 => daysOfMonths y m + monthLength y (m + 1)

/-- Day number of the first of March. -/
def march (y : ℤ) : ℤ := 365 * y + y / 4 - y / 100 + y / 400 - 719468

/-- Day number of the first of January. -/
def january (y : ℤ) : ℤ := march (y - 1) + 306

/-- A date that exists. -/
structure Date where
  year : ℤ
  month : ℕ
  day : ℕ
  month_pos : 1 ≤ month
  month_le : month ≤ 12
  day_pos : 1 ≤ day
  day_le : day ≤ monthLength year month

/-- Days since the first of January 1970. -/
def dayNumber (y : ℤ) (m d : ℕ) : ℤ :=
  january y + (daysOfMonths y (m - 1) + d : ℕ) - 1

def Date.number (x : Date) : ℤ := dayNumber x.year x.month x.day

theorem leapDay_eq_one_iff (y : ℤ) : leapDay y = 1 ↔ isLeap y = true := by
  unfold leapDay
  split <;> simp_all

theorem leapDay_le (y : ℤ) : leapDay y ≤ 1 := by
  unfold leapDay
  split <;> omega

theorem leapDay_eq (y : ℤ) :
    (leapDay y : ℤ) =
      if y % 4 = 0 ∧ (y % 100 ≠ 0 ∨ y % 400 = 0) then 1 else 0 := by
  unfold leapDay isLeap
  split <;> simp_all

/-- A year has 365 days, or 366 if it is a leap year. -/
theorem january_succ (y : ℤ) :
    january (y + 1) = january y + 365 + leapDay y := by
  rw [leapDay_eq]
  unfold january march
  split <;> omega

example : january 1970 = 0 := by decide

theorem march_eq (y : ℤ) : march y = january y + 59 + leapDay y := by
  have h := january_succ y
  unfold january at h ⊢
  have hyear : y + 1 - 1 = y := by omega
  rw [hyear] at h
  omega

theorem monthLength_pos (y : ℤ) (m : ℕ) : 28 ≤ monthLength y m := by
  unfold monthLength
  split <;> omega

theorem daysOfMonths_year (y : ℤ) : daysOfMonths y 12 = 365 + leapDay y := by
  simp only [daysOfMonths, monthLength]
  omega

theorem daysOfMonths_mono (y : ℤ) {m n : ℕ} (h : m ≤ n) :
    daysOfMonths y m ≤ daysOfMonths y n := by
  induction n, h using Nat.le_induction with
  | base => exact Nat.le_refl _
  | succ n _ ih => exact Nat.le_trans ih (Nat.le_add_right _ _)

/-! ## The day after -/

/-- The next day of the month, else the first of the next month, else the
first of January. -/
def Date.next (x : Date) : Date :=
  if hday : x.day < monthLength x.year x.month then
    { x with
      day := x.day + 1
      day_pos := Nat.succ_pos _
      day_le := hday }
  else if hmonth : x.month < 12 then
    { year := x.year
      month := x.month + 1
      day := 1
      month_pos := Nat.succ_pos _
      month_le := hmonth
      day_pos := Nat.le_refl _
      day_le := Nat.le_trans (by decide) (monthLength_pos _ _) }
  else
    { year := x.year + 1
      month := 1
      day := 1
      month_pos := Nat.le_refl _
      month_le := by decide
      day_pos := Nat.le_refl _
      day_le := Nat.le_trans (by decide) (monthLength_pos _ _) }

theorem daysOfMonths_pred (y : ℤ) {m : ℕ} (h : 1 ≤ m) :
    daysOfMonths y m = daysOfMonths y (m - 1) + monthLength y m := by
  obtain ⟨k, rfl⟩ := Nat.exists_eq_add_of_le' h
  rfl

theorem year_le_next_year (x : Date) : x.year ≤ x.next.year := by
  unfold Date.next
  split
  · exact le_refl _
  · split
    · exact le_refl _
    · exact (lt_add_one _).le

/-- The day after has the next number. -/
theorem number_next (x : Date) : x.next.number = x.number + 1 := by
  have hday_le := x.day_le
  have hmonth_le := x.month_le
  have hmonths := daysOfMonths_pred x.year x.month_pos
  unfold Date.next
  split
  · simp only [Date.number, dayNumber]
    omega
  · split
    · simp only [Date.number, dayNumber, Nat.add_sub_cancel]
      omega
    · have hdecember : x.month = 12 := by omega
      have hyear := january_succ x.year
      have htotal := daysOfMonths_year x.year
      have hnone : daysOfMonths (x.year + 1) (1 - 1) = 0 := rfl
      rw [hdecember] at hmonths hday_le
      have hlast : ¬ x.day < monthLength x.year 12 := by
        rwa [← hdecember]
      simp only [Date.number, dayNumber, hdecember, hnone]
      omega

/-! ## One date for each number -/

/-- A date lies inside its year. -/
theorem number_bounds (x : Date) :
    january x.year ≤ x.number ∧ x.number < january (x.year + 1) := by
  have hday_pos := x.day_pos
  have hday_le := x.day_le
  have hmonths := daysOfMonths_pred x.year x.month_pos
  have hle := daysOfMonths_mono x.year x.month_le
  have hyear := january_succ x.year
  have htotal := daysOfMonths_year x.year
  unfold Date.number dayNumber
  omega

theorem january_strictMono : StrictMono january :=
  strictMono_int_of_lt_succ fun y => by
    have h := january_succ y
    omega

theorem year_eq_of_number_eq {x y : Date} (h : x.number = y.number) :
    x.year = y.year := by
  have hx := number_bounds x
  have hy := number_bounds y
  rw [h] at hx
  have hxy : x.year < y.year + 1 :=
    january_strictMono.lt_iff_lt.mp (lt_of_le_of_lt hx.1 hy.2)
  have hyx : y.year < x.year + 1 :=
    january_strictMono.lt_iff_lt.mp (lt_of_le_of_lt hy.1 hx.2)
  omega

theorem month_le_of_number_eq {x y : Date} (hyear : x.year = y.year)
    (h : x.number = y.number) : x.month ≤ y.month := by
  by_contra hlt
  have hle := daysOfMonths_mono x.year (Nat.le_sub_one_of_lt (not_le.mp hlt))
  have hmonths := daysOfMonths_pred y.year y.month_pos
  have hday := y.day_le
  have hpos := x.day_pos
  unfold Date.number dayNumber at h
  rw [hyear] at h hle
  omega

/-- No two dates have the same number. -/
theorem number_injective {x y : Date} (h : x.number = y.number) : x = y := by
  have hyear := year_eq_of_number_eq h
  have hmonth := Nat.le_antisymm (month_le_of_number_eq hyear h)
    (month_le_of_number_eq hyear.symm h.symm)
  have hday : x.day = y.day := by
    unfold Date.number dayNumber at h
    rw [hyear, hmonth] at h
    omega
  cases x
  cases y
  simp only at hyear hmonth hday
  subst hyear hmonth hday
  rfl

/-! ## The order of dates -/

/-- The order by year, month and day. -/
def Date.Before (x y : Date) : Prop :=
  x.year < y.year ∨ x.year = y.year ∧
    (x.month < y.month ∨ x.month = y.month ∧ x.day < y.day)

theorem Date.Before.number_lt {x y : Date} (h : x.Before y) : x.number < y.number := by
  obtain ⟨-, hx⟩ := number_bounds x
  obtain ⟨hy, -⟩ := number_bounds y
  rcases h with hyear | ⟨hyear, hmonth | ⟨hmonth, hday⟩⟩
  · have hle : january (x.year + 1) ≤ january y.year :=
      january_strictMono.monotone hyear
    omega
  · have hmono := daysOfMonths_mono x.year (Nat.le_sub_one_of_lt hmonth)
    have hend := daysOfMonths_pred x.year x.month_pos
    have hlast := x.day_le
    have hfirst := y.day_pos
    unfold Date.number dayNumber
    rw [← hyear]
    omega
  · unfold Date.number dayNumber
    rw [← hyear, ← hmonth]
    omega

/-- Dates are in the order of their numbers. -/
theorem number_lt_iff {x y : Date} : x.number < y.number ↔ x.Before y := by
  constructor
  · intro h
    by_contra hbefore
    by_cases hsame : x.year = y.year ∧ x.month = y.month ∧ x.day = y.day
    · have hnumber : x.number = y.number := by
        rw [Date.number, Date.number, hsame.1, hsame.2.1, hsame.2.2]
      omega
    · have hafter : y.Before x := by
        unfold Date.Before at hbefore ⊢
        omega
      have hnumber := hafter.number_lt
      omega
  · exact Date.Before.number_lt

/-! ## Years that begin in March -/

/-- Days before month `m` of a year that begins in March. -/
def daysBeforeMonth (m : ℕ) : ℕ := (153 * m + 2) / 5

/-- Day of a year that begins in March to its month. -/
def monthOfDay (day : ℕ) : ℕ := (5 * day + 2) / 153

/-- Days of an era before its year `y`. -/
def daysBeforeYear (y : ℕ) : ℕ := 365 * y + y / 4 - y / 100

/-- Day of an era to its year. -/
def yearOfDay (day : ℕ) : ℕ :=
  (day - day / 1460 + day / 36524 - day / 146096) / 365

/-- A day of an era falls into a century, a group of four years, a year and a
day of the year.  A year has a day 365 when the next one is a leap year: in
the last year of a group, except for the last group of a century, except for
the last century. -/
theorem exists_era_parts {day : ℕ} (h : day ≤ 146096) :
    ∃ c q j r, c ≤ 3 ∧ q ≤ 24 ∧ j ≤ 3 ∧ r ≤ 365 ∧
      (r = 365 → j = 3 ∧ (q = 24 → c = 3)) ∧
      day = 36524 * c + 1461 * q + 365 * j + r := by
  obtain ⟨c, hc, hlow, hhigh⟩ : ∃ c, c ≤ 3 ∧ 36524 * c ≤ day ∧
      day ≤ 36524 * c + 36523 + (if c = 3 then 1 else 0) := by
    refine ⟨min (day / 36524) 3, by omega, by omega, ?_⟩
    split <;> omega
  obtain ⟨q, s, hs, hday⟩ :
      ∃ q s, s ≤ 1460 ∧ day = 36524 * c + 1461 * q + s :=
    ⟨(day - 36524 * c) / 1461, (day - 36524 * c) % 1461, by omega, by omega⟩
  refine ⟨c, q, min (s / 365) 3, s - 365 * min (s / 365) 3, hc, ?_, by omega,
    by omega, ?_, by omega⟩
  · split at hhigh <;> omega
  · intro hlong
    refine ⟨by omega, ?_⟩
    intro hq
    split at hhigh <;> omega

theorem daysBeforeYear_parts {c q j : ℕ} (hq : q ≤ 24) (hj : j ≤ 3) :
    daysBeforeYear (100 * c + 4 * q + j) = 36524 * c + 1461 * q + 365 * j := by
  unfold daysBeforeYear
  omega

theorem century_parts {c q j r : ℕ} (hq : q ≤ 24) (hj : j ≤ 3)
    (hr : r ≤ 365) (hlong : r = 365 → j = 3 ∧ (q = 24 → c = 3)) :
    1461 * q + 365 * j + r ≤ 36523 ∨
      c = 3 ∧ 1461 * q + 365 * j + r = 36524 := by
  by_cases hday : r = 365
  · obtain ⟨hj', hcq⟩ := hlong hday
    by_cases hq' : q = 24
    · have hc := hcq hq'
      omega
    · omega
  · omega

/-- The corrections by centuries: the last day of the era is the only one
beyond the fourth century. -/
theorem century_quotient {day c s : ℕ} (hday : day = 36524 * c + s)
    (hc : c ≤ 3) (hs : s ≤ 36523 ∨ c = 3 ∧ s = 36524) :
    day / 36524 = c + day / 146096 := by
  rcases hs with hs | ⟨rfl, rfl⟩
  · omega
  · omega

/-- The correction by groups of four years. -/
theorem group_quotient {day c q s : ℕ}
    (hday : day = 36524 * c + 1461 * q + s) :
    day / 1460 = 25 * c + q + (24 * c + q + s) / 1460 := by
  omega

/-- What the correction by groups takes too much is taken from the day, of
which there are enough. -/
theorem group_excess {c q j r : ℕ} (hc : c ≤ 3) (hq : q ≤ 24) (hj : j ≤ 3)
    (hr : r ≤ 365) (hlong : r = 365 → j = 3) :
    (24 * c + q + (365 * j + r)) / 1460 ≤ r ∧
      r - (24 * c + q + (365 * j + r)) / 1460 ≤ 364 := by
  by_cases hday : r = 365
  · have hj' := hlong hday
    omega
  · omega

/-- The three corrections of the quotient cancel the leap days. -/
theorem yearOfDay_parts {day c q j r : ℕ} (hc : c ≤ 3) (hq : q ≤ 24)
    (hj : j ≤ 3) (hr : r ≤ 365)
    (hlong : r = 365 → j = 3 ∧ (q = 24 → c = 3))
    (hday : day = 36524 * c + 1461 * q + 365 * j + r) :
    yearOfDay day = 100 * c + 4 * q + j := by
  have hcentury : day / 36524 = c + day / 146096 :=
    century_quotient (by omega) hc (century_parts hq hj hr hlong)
  have hgroup : day / 1460 = 25 * c + q + (24 * c + q + (365 * j + r)) / 1460 :=
    group_quotient (by omega)
  have hexcess := group_excess hc hq hj hr fun h => (hlong h).1
  rw [yearOfDay, hcentury, hgroup]
  generalize (24 * c + q + (365 * j + r)) / 1460 = e at hexcess
  generalize day / 146096 = f
  omega

/-- The year of a day is found exactly, and the rest is a day of that year. -/
theorem yearOfDay_spec {day : ℕ} (h : day ≤ 146096) :
    yearOfDay day ≤ 399 ∧ daysBeforeYear (yearOfDay day) ≤ day ∧
      day - daysBeforeYear (yearOfDay day) ≤ 365 ∧
      (day - daysBeforeYear (yearOfDay day) = 365 →
        isLeap (yearOfDay day + 1) = true) := by
  obtain ⟨c, q, j, r, hc, hq, hj, hr, hlong, hday⟩ := exists_era_parts h
  rw [yearOfDay_parts hc hq hj hr hlong hday, daysBeforeYear_parts hq hj]
  refine ⟨by omega, by omega, by omega, ?_⟩
  intro hlast
  obtain ⟨hj', hcq⟩ := hlong (by omega)
  simp only [isLeap, decide_eq_true_eq]
  push_cast
  omega

/-- The year that contains a month when years begin in March. -/
def marchYear (y : ℤ) (m : ℕ) : ℤ := if m ≤ 2 then y - 1 else y

/-- The months since March. -/
def marchMonth (m : ℕ) : ℕ := if m ≤ 2 then m + 9 else m - 3

/-- The month that is `m` months after March. -/
def monthAfterMarch (m : ℕ) : ℕ := if m < 10 then m + 3 else m - 9

theorem isLeap_add_era (y e : ℤ) : isLeap (y + e * 400) = isLeap y := by
  unfold isLeap
  congr 1
  apply propext
  omega

/-- Days before a year that begins in March, by its era. -/
theorem march_era {y : ℕ} (hy : y ≤ 399) (e : ℤ) :
    march (y + e * 400) = e * 146097 + daysBeforeYear y - 719468 := by
  unfold march daysBeforeYear
  omega

theorem daysBeforeYear_le {y : ℕ} (hy : y ≤ 399) : daysBeforeYear y ≤ 145731 := by
  unfold daysBeforeYear
  omega

/-- The year of an era of any year, and the days before it. -/
theorem exists_march_era (y : ℤ) :
    ∃ k : ℕ, k ≤ 399 ∧ y - y / 400 * 400 = k ∧
      march y = y / 400 * 146097 + daysBeforeYear k - 719468 := by
  obtain ⟨k, hk⟩ : ∃ k : ℕ, (k : ℤ) = y % 400 := ⟨(y % 400).toNat, by omega⟩
  have hle : k ≤ 399 := by omega
  have hsplit : (k : ℤ) + y / 400 * 400 = y := by omega
  have hmarch := march_era hle (y / 400)
  rw [hsplit] at hmarch
  exact ⟨k, hle, by omega, hmarch⟩

/-- The day number counted from March. -/
theorem dayNumber_eq_march (y : ℤ) {m : ℕ} (hpos : 1 ≤ m) (hle : m ≤ 12)
    (d : ℕ) :
    dayNumber y m d =
      march (marchYear y m) + daysBeforeMonth (marchMonth m) + d - 1 := by
  have hmarch := march_eq y
  have hjanuary : january y = march (y - 1) + 306 := rfl
  have hleap := leapDay_le y
  unfold dayNumber
  interval_cases m <;>
    simp [daysOfMonths, monthLength, marchYear, marchMonth,
      daysBeforeMonth] <;> omega

theorem daysBeforeMonth_le {m : ℕ} (hle : m ≤ 12) :
    daysBeforeMonth (marchMonth m) ≤ 337 := by
  unfold daysBeforeMonth marchMonth
  split <;> omega

theorem monthOfDay_spec {r : ℕ} (hr : r ≤ 365) :
    monthOfDay r ≤ 11 ∧ daysBeforeMonth (monthOfDay r) ≤ r := by
  unfold daysBeforeMonth monthOfDay
  omega

theorem marchMonth_monthAfterMarch {m : ℕ} (h : m ≤ 11) :
    marchMonth (monthAfterMarch m) = m := by
  unfold marchMonth monthAfterMarch
  split
  · split <;> omega
  · split <;> omega

/-- The day found in its month exists. -/
theorem dayOfMonth_le {r : ℕ} (hr : r ≤ 365) {y : ℤ}
    (hleap : r = 365 → isLeap y = true) :
    r - daysBeforeMonth (monthOfDay r) + 1 ≤
      monthLength y (monthAfterMarch (monthOfDay r)) := by
  have hlast : r = 365 → leapDay y = 1 :=
    fun h => (leapDay_eq_one_iff y).mpr (hleap h)
  have hle := (monthOfDay_spec hr).1
  have hmonth : 153 * monthOfDay r ≤ 5 * r + 2 ∧
      5 * r + 2 < 153 * (monthOfDay r + 1) := by
    unfold monthOfDay
    omega
  unfold daysBeforeMonth
  generalize monthOfDay r = m at hle hmonth
  interval_cases m <;> simp only [monthAfterMarch, monthLength, Nat.reduceLT,
    Nat.reduceAdd, Nat.reduceSub, ↓reduceIte] <;> omega

/-! ## The date of a number -/

/-- Day of the era of a day number, counted from March of year zero. -/
def dayOfEra (d : ℤ) : ℕ := ((d + 719468) % 146097).toNat

def era (d : ℤ) : ℤ := (d + 719468) / 146097

/-- Day of a year that begins in March. -/
def dayOfYear (d : ℤ) : ℕ :=
  dayOfEra d - daysBeforeYear (yearOfDay (dayOfEra d))

theorem dayOfEra_le (d : ℤ) : dayOfEra d ≤ 146096 := by
  unfold dayOfEra
  omega

theorem era_dayOfEra (d : ℤ) : d + 719468 = era d * 146097 + dayOfEra d := by
  unfold era dayOfEra
  omega

/-- The date with a given number. -/
def Date.ofNumber (d : ℤ) : Date where
  year := yearOfDay (dayOfEra d) + era d * 400 +
    if monthAfterMarch (monthOfDay (dayOfYear d)) ≤ 2 then 1 else 0
  month := monthAfterMarch (monthOfDay (dayOfYear d))
  day := dayOfYear d - daysBeforeMonth (monthOfDay (dayOfYear d)) + 1
  month_pos := by
    have h := monthOfDay_spec (yearOfDay_spec (dayOfEra_le d)).2.2.1
    unfold monthAfterMarch
    split <;> omega
  month_le := by
    have h := (monthOfDay_spec (yearOfDay_spec (dayOfEra_le d)).2.2.1).1
    change monthOfDay (dayOfYear d) ≤ 11 at h
    unfold monthAfterMarch
    split <;> omega
  day_pos := Nat.succ_pos _
  day_le := by
    obtain ⟨-, -, hr, hleap⟩ := yearOfDay_spec (dayOfEra_le d)
    refine dayOfMonth_le hr fun hlast => ?_
    have hmonth : monthOfDay (dayOfYear d) = 11 := by
      have hday : dayOfYear d = 365 := hlast
      rw [hday]
      rfl
    have hyear := isLeap_add_era (yearOfDay (dayOfEra d) + 1) (era d)
    rw [hleap hlast] at hyear
    rw [hmonth, ← hyear]
    congr 1
    simp only [monthAfterMarch, Nat.reduceLT, Nat.reduceSub, ↓reduceIte,
      Nat.le_refl]
    omega

theorem ofNumber_marchYear (d : ℤ) :
    marchYear (Date.ofNumber d).year (Date.ofNumber d).month =
      yearOfDay (dayOfEra d) + era d * 400 := by
  unfold marchYear
  simp only [Date.ofNumber]
  split <;> omega

/-- Every number is the number of its date. -/
theorem number_ofNumber (d : ℤ) : (Date.ofNumber d).number = d := by
  obtain ⟨hyear, hbefore, hr, -⟩ := yearOfDay_spec (dayOfEra_le d)
  obtain ⟨hmonth, hday⟩ := monthOfDay_spec hr
  have hmarch := march_era hyear (era d)
  have hera := era_dayOfEra d
  have hback : marchMonth (Date.ofNumber d).month = monthOfDay (dayOfYear d) :=
    marchMonth_monthAfterMarch hmonth
  have hdate : (Date.ofNumber d).day =
      dayOfYear d - daysBeforeMonth (monthOfDay (dayOfYear d)) + 1 := rfl
  have hdayOfYear : dayOfYear d =
      dayOfEra d - daysBeforeYear (yearOfDay (dayOfEra d)) := rfl
  rw [Date.number, dayNumber_eq_march _ (Date.ofNumber d).month_pos
    (Date.ofNumber d).month_le, ofNumber_marchYear, hback, hmarch, hdate]
  rw [← hdayOfYear] at hday
  omega

/-- The date of the next number is the day after. -/
theorem ofNumber_succ (d : ℤ) :
    Date.ofNumber (d + 1) = (Date.ofNumber d).next := by
  apply number_injective
  rw [number_ofNumber, number_next, number_ofNumber]

/-- The year of a date is the one whose days contain its number. -/
theorem ofNumber_year_bounds {lo hi d : ℤ} (hlo : january lo ≤ d)
    (hhi : d < january (hi + 1)) :
    lo ≤ (Date.ofNumber d).year ∧ (Date.ofNumber d).year ≤ hi := by
  obtain ⟨hfirst, hlast⟩ := number_bounds (Date.ofNumber d)
  rw [number_ofNumber] at hfirst hlast
  have hlow : lo < (Date.ofNumber d).year + 1 :=
    january_strictMono.lt_iff_lt.mp (lt_of_le_of_lt hlo hlast)
  have hhigh : (Date.ofNumber d).year < hi + 1 :=
    january_strictMono.lt_iff_lt.mp (lt_of_le_of_lt hfirst hhi)
  omega

end Libhipcxx.Gregorian
