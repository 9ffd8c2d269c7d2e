import Libhipcxx.Chrono.Civil

/-!
# Day counts and dates

Every day count of a year that `year::ok` accepts becomes an accepted date and
comes back, and the date of the next count follows it.  The last day of the
year 32767 has no next date: its year does not fit a `short`.
-/

namespace Libhipcxx.Chrono

open MachineInt Gregorian

/-- The next day of the month, else the first of the next month, else the
first of January of the next year. -/
def Follows (date next : YearMonthDay) : Prop :=
  ∃ last, lastDay date.year date.month = some last ∧
    if date.day.toUnsigned < last.toUnsigned then
      next.year = date.year ∧ next.month = date.month ∧
        next.day.toUnsigned.toNat = date.day.toUnsigned.toNat + 1
    else if date.month.toUnsigned < 12 then
      next.year = date.year ∧
        next.month.toUnsigned.toNat = date.month.toUnsigned.toNat + 1 ∧
        next.day.toUnsigned = 1
    else
      next.year.toInt = date.year.toInt + 1 ∧ next.month.toUnsigned = 1 ∧
        next.day.toUnsigned = 1

theorem day_ofDate (date : Date) :
    (ofDate date).day.toUnsigned = BitVec.ofNat 32 date.day := by
  have hday := date.day_le
  have hlength := monthLength_le date.year date.month
  exact toUnsigned_day (by omega)

theorem month_ofDate (date : Date) :
    (ofDate date).month.toUnsigned = BitVec.ofNat 32 date.month := by
  have hmonth := date.month_le
  exact toUnsigned_month (by omega)

/-- The day after follows, if its year fits a `short`. -/
theorem follows_ofDate (date : Date) (hlo : -32768 ≤ date.year)
    (hhi : date.next.year < 32768) : Follows (ofDate date) (ofDate date.next) := by
  have hday := date.day_le
  have hmonth := date.month_le
  have hlength := monthLength_le date.year date.month
  have hyear := year_le_next_year date
  refine ⟨_, lastDay_ofDate date hlo (by omega), ?_⟩
  rw [day_ofDate, month_ofDate, toUnsigned_day (by omega), day_ofDate, month_ofDate]
  have hdayLt := @ofNat_lt_ofNat 32 date.day (monthLength date.year date.month)
    (by omega) (by omega)
  have hmonthLt : BitVec.ofNat 32 date.month < 12 ↔ date.month < 12 :=
    @ofNat_lt_ofNat 32 date.month 12 (by omega) (by decide)
  by_cases hlast : date.day < monthLength date.year date.month
  · rw [if_pos (hdayLt.mpr hlast), Date.next, dif_pos hlast]
    have hnext : date.day + 1 < 2 ^ 32 := by omega
    exact ⟨rfl, rfl, (toNat_ofNat_of_lt hnext).trans
      (congrArg (· + 1) (toNat_ofNat_of_lt (by omega)).symm)⟩
  · rw [if_neg (mt hdayLt.mp hlast)]
    by_cases hdecember : date.month < 12
    · rw [if_pos (hmonthLt.mpr hdecember), Date.next, dif_neg hlast,
        dif_pos hdecember]
      have hnext : date.month + 1 < 2 ^ 32 := by omega
      exact ⟨rfl, (toNat_ofNat_of_lt hnext).trans
        (congrArg (· + 1) (toNat_ofNat_of_lt (by omega)).symm), rfl⟩
    · rw [if_neg (mt hmonthLt.mp hdecember)]
      unfold Date.next at hhi ⊢
      rw [dif_neg hlast, dif_neg hdecember] at hhi ⊢
      refine ⟨?_, rfl, rfl⟩
      simp only [ofDate] at hhi ⊢
      rw [toInt_year (by omega) hhi, toInt_year hlo (by omega)]

theorem january_min : january (-32767) = -12687428 := by decide

theorem january_end : january 32768 = 11248738 := by decide

/-- Every day count of the years from -32767 to 32767 is an accepted date of
its year and comes back, and the date of the next one follows, except after
the last day of the year 32767. -/
theorem fromDays_follows {d : ℤ}
    (hlo : january (-32767) ≤ d) (hhi : d < january 32768) :
    ∃ date, fromDays d = some date ∧ date.ok = some true ∧
      january date.year.toInt ≤ d ∧ d < january (date.year.toInt + 1) ∧
      toDays date = some d ∧
      (d + 1 < january 32768 →
        ∃ next, fromDays (d + 1) = some next ∧ Follows date next) := by
  obtain ⟨hyear_lo, hyear_hi⟩ := @ofNumber_year_bounds (-32767) 32767 d hlo hhi
  have hbounds := number_bounds (Date.ofNumber d)
  have hnumber := number_ofNumber d
  rw [hnumber] at hbounds
  rw [january_min] at hlo
  rw [january_end] at hhi
  have hyear : (ofDate (Date.ofNumber d)).year.toInt = (Date.ofNumber d).year :=
    toInt_year (by omega) (by omega)
  refine ⟨ofDate (Date.ofNumber d), fromDays_eq (by omega) (by omega),
    ok_ofDate _ hyear_lo (by omega), ?_, ?_, ?_, ?_⟩
  · rw [hyear]
    exact hbounds.1
  · rw [hyear]
    exact hbounds.2
  · rw [toDays_ofDate _ (by omega) (by omega), hnumber]
  · intro hnext
    have hnext_hi := (@ofNumber_year_bounds (-32767) 32767 (d + 1)
      (by rw [january_min]; omega) hnext).2
    refine ⟨_, fromDays_eq (by omega) (by omega), ?_⟩
    rw [ofNumber_succ] at hnext_hi ⊢
    exact follows_ofDate _ (by omega) (by omega)

/-- The leap day of the year zero, before the era of the first of March. -/
theorem fromDays_follows_leap_day :
    ∃ date, fromDays (-719469) = some date ∧ date.ok = some true ∧
      toDays date = some (-719469) ∧
      ∃ next, fromDays (-719469 + 1) = some next ∧ Follows date next := by
  obtain ⟨date, hdate, hok, -, -, hback, hnext⟩ :=
    @fromDays_follows (-719469) (by decide) (by decide)
  exact ⟨date, hdate, hok, hback, hnext (by decide)⟩

/-- The date after the last day of the year 32767 has the year -32768. -/
theorem fromDays_not_follows_last_day :
    ¬ ∀ d : ℤ, january (-32767) ≤ d → d < january 32768 →
      ∃ date, fromDays d = some date ∧ date.ok = some true ∧
        toDays date = some d ∧
        ∃ next, fromDays (d + 1) = some next ∧ Follows date next := by
  intro h
  obtain ⟨date, hdate, -, -, next, hnext, last, hlast, hfollows⟩ :=
    h 11248737 (by decide) (by decide)
  have hdate' : fromDays 11248737 =
      some ⟨Year.ofInt 32767, Month.ofUnsigned 12, Day.ofUnsigned 31⟩ := by decide
  have hnext' : fromDays (11248737 + 1) =
      some ⟨Year.ofInt (-32768), Month.ofUnsigned 1, Day.ofUnsigned 1⟩ := by decide
  have hlast' : lastDay (Year.ofInt 32767) (Month.ofUnsigned 12) =
      some (Day.ofUnsigned 31) := by decide
  obtain rfl := Option.some.inj (hdate'.symm.trans hdate)
  obtain rfl := Option.some.inj (hnext'.symm.trans hnext)
  obtain rfl := Option.some.inj (hlast'.symm.trans hlast)
  revert hfollows
  decide

end Libhipcxx.Chrono
