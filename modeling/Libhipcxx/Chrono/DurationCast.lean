import Libhipcxx.Chrono.DurationTime
import Libhipcxx.Support.Rounding
import Mathlib.Data.Rat.Floor

/-!
# Duration casts

`duration_cast` scales a count by the quotient of the periods.  As long as the
product fits the type that it is computed in, and the quotient the target, the
result is the time in target periods, rounded towards zero.
-/

namespace Libhipcxx.Chrono

open Rational Rounding

variable {T U : DurationType}

/-- The rest of a computation, where there is a value to continue with. -/
def andThen {α β : Type} (e : Except Failure (Option α))
    (f : α → Except Failure (Option β)) : Except Failure (Option β) :=
  e >>= fun result => result.elim (.ok none) f

@[simp] theorem andThen_some {α β : Type} (x : α)
    (f : α → Except Failure (Option β)) : andThen (.ok (some x)) f = f x := rfl

/-- `duration_cast`. -/
def castTo (U : DurationType) (d : Duration T) :
    Except Failure (Option (Duration U)) := do
  let factor ← ratioDivide T.period U.period
  return durationCast factor U d

/-- Neither the factor of a cast nor its product nor its quotient is out of
range. -/
def CastFits (U : DurationType) (d : Duration T) : Prop :=
  ∃ factor : Ratio, factor.value = T.unit / U.unit ∧
    (castRep T U).Fits (d.count * factor.num) ∧
    U.rep.Fits (truncate (d.time / U.unit))

/-! ## The time of a count -/

theorem Duration.time_le_iff {d : Duration T} {t : Duration U} :
    d.time ≤ t.time ↔ d.time / U.unit ≤ t.count := by
  rw [div_le_iff₀ U.unit_pos]
  rfl

theorem Duration.le_time_iff {d : Duration T} {t : Duration U} :
    t.time ≤ d.time ↔ (t.count : ℚ) ≤ d.time / U.unit := by
  rw [le_div_iff₀ U.unit_pos]
  rfl

theorem Duration.time_lt_iff {d : Duration T} {t : Duration U} :
    d.time < t.time ↔ d.time / U.unit < t.count := by
  rw [div_lt_iff₀ U.unit_pos]
  rfl

theorem Duration.lt_time_iff {d : Duration T} {t : Duration U} :
    t.time < d.time ↔ (t.count : ℚ) < d.time / U.unit := by
  rw [lt_div_iff₀ U.unit_pos]
  rfl

/-! ## The cast -/

/-- A quotient by a positive number fits where its dividend does. -/
theorem fits_tdiv {r : Rep} {x b : ℤ} (h : r.Fits x) (hb : 0 < b) :
    r.Fits (x.tdiv b) := by
  have hmin : r.type.min ≤ 0 := r.type.min_nonpos
  have hmax : 0 ≤ r.type.max := r.type.fits_zero.2
  rcases le_total 0 x with hpos | hneg
  · have hquotient := Int.tdiv_nonneg hpos hb.le
    have hle := Int.tdiv_le_self b hpos
    exact ⟨hmin.trans hquotient, hle.trans h.2⟩
  · have hquotient := Int.tdiv_nonneg (neg_nonneg.mpr hneg) hb.le
    have hle := Int.tdiv_le_self b (neg_nonneg.mpr hneg)
    rw [Int.neg_tdiv] at hquotient hle
    exact ⟨h.1.trans (by omega), (by omega : x.tdiv b ≤ 0).trans hmax⟩

/-- All four specialisations multiply by the numerator and divide by the
denominator. -/
theorem durationCast_tdiv {factor : Ratio} {d : Duration T}
    (hproduct : (castRep T U).Fits (d.count * factor.num)) :
    durationCast factor U d =
      some (Duration.ofNumber U ((d.count * factor.num).tdiv factor.den)) := by
  have hcount := fits_castRep_left U d.fits
  have hnum := fits_castRep_intmax T U factor.num_le
  have hden := fits_castRep_intmax T U factor.abs_den_le
  have hquotient := fits_tdiv hproduct factor.den_pos
  by_cases hwhole : factor.den = 1
  · rw [durationCast_whole hwhole, if_pos hproduct, hwhole, Int.tdiv_one]
  · simp only [durationCast, hwhole, ↓reduceIte]
    rw [IntegerType.convert_of_fits hcount, IntegerType.convert_of_fits hnum,
      IntegerType.convert_of_fits hden, IntegerType.arith_of_fits hproduct]
    split
    · rename_i hone
      rw [hone, mul_one] at hquotient ⊢
      rw [IntegerType.arith_of_fits hquotient]
      rfl
    · rw [Option.bind_eq_bind, Option.bind_some, IntegerType.arith_of_fits hquotient]
      rfl

/-- A cast truncates the time in periods of the target. -/
theorem castTo_spec {d : Duration T} (h : CastFits U d) :
    ∃ t : Duration U, castTo U d = .ok (some t) ∧
      t.count = truncate (d.time / U.unit) := by
  obtain ⟨factor, hvalue, hproduct, hfits⟩ := h
  have hrep : Representable (T.period.value / U.period.value) := by
    change Representable (T.unit / U.unit)
    rw [← hvalue]
    exact factor.representable_value
  obtain ⟨R, hR, hsame⟩ := ratioDivide_eq U.period_pos.ne' hrep
  obtain rfl : R = factor := Ratio.value_injective (hsame.trans hvalue.symm)
  have hquotient : (d.count * R.num).tdiv R.den = truncate (d.time / U.unit) := by
    rw [tdiv_eq_truncate ℚ _ R.den_pos, Duration.time, mul_div_assoc, ← hvalue,
      Ratio.value, Int.cast_mul, mul_div_assoc]
  refine ⟨⟨truncate (d.time / U.unit), hfits⟩, ?_, rfl⟩
  rw [castTo, hR, ok_bind, durationCast_tdiv hproduct, hquotient]
  exact congrArg (Except.ok ∘ some)
    (Duration.ext (IntegerType.convert_of_fits hfits))

/-! ## Assignment to a type -/

/-- A sum or a difference assigned to a duration of type `U`. -/
def assignTo (U : DurationType)
    (e : Except Failure (Option ((C : DurationType) × Duration C))) :
    Except Failure (Option (Duration U)) :=
  andThen e fun ⟨C, d⟩ => do
    let factor ← conversion C U
    return durationCast factor U d

/-- The conversion between types with the same period has the factor one. -/
theorem exists_conversion_same {C : DurationType} (hunit : C.unit = U.unit) :
    ∃ factor, conversion C U = .ok factor ∧ factor.den = 1 ∧ factor.num = 1 := by
  have hone : C.unit = (1 : ℤ) * U.unit := by
    rw [Int.cast_one, one_mul, hunit]
  obtain ⟨factor, hfactor⟩ := exists_conversion hone (by
    rw [hunit, div_self U.unit_pos.ne']
    exact_mod_cast Rational.max_pos)
  obtain ⟨hden, hnum⟩ := conversion_eq_ok_iff.mp hfactor
  refine ⟨factor, hfactor, hden, ?_⟩
  rw [hone] at hnum
  exact_mod_cast (mul_right_cancel₀ U.unit_pos.ne' hnum).symm

theorem durationCast_same {C : DurationType} {factor : Ratio} {d : Duration C}
    (hden : factor.den = 1) (hnum : factor.num = 1) (hfits : U.rep.Fits d.count) :
    durationCast factor U d = some ⟨d.count, hfits⟩ := by
  have hcount : d.count * factor.num = d.count := by
    rw [hnum, mul_one]
  rw [durationCast_eq hden (hcount.symm ▸ hfits)]
  exact congrArg some (Duration.ext hcount)

/-- Assignment of a duration with the same period keeps the count. -/
theorem assignTo_eq {C : DurationType} {d : Duration C} (hunit : C.unit = U.unit)
    (hfits : U.rep.Fits d.count) :
    assignTo U (.ok (some ⟨C, d⟩)) = .ok (some ⟨d.count, hfits⟩) := by
  obtain ⟨factor, hfactor, hden, hnum⟩ := exists_conversion_same hunit
  rw [assignTo, andThen_some]
  change (conversion C U >>= fun factor => .ok (durationCast factor U d)) = _
  rw [hfactor, ok_bind, durationCast_same hden hnum hfits]

theorem commonType_comm (T U : DurationType) : commonType T U = commonType U T := by
  rw [commonType_run, commonType_run, Int.lcm_comm, Int.gcd_comm, Rep.common_comm]

/-- The result of an operation on two durations of type `U`, assigned to that
type, is the duration of the same time. -/
theorem assignTo_combine {op : ℤ → ℤ → ℤ} {lhs rhs t : Duration U}
    (h : Denotes (combine op lhs rhs) t.time) :
    assignTo U (combine op lhs rhs) = .ok (some t) := by
  obtain ⟨C, d, hrun, htime⟩ := h
  obtain ⟨hcommon, hrep⟩ := combine_commonType hrun
  have hunit := (commonType_spec hcommon).2
  rw [commonUnit_self] at hunit
  have hcount : d.count = t.count := by
    rw [Duration.time, Duration.time, hunit] at htime
    exact_mod_cast mul_right_cancel₀ U.unit_pos.ne' htime
  rw [hrun, assignTo_eq hunit (hcount.symm ▸ t.fits)]
  exact congrArg (Except.ok ∘ some) (Duration.ext hcount)

/-! ## Unary operators -/

theorem commonType_self (T : DurationType) :
    ∃ C, commonType T T = .ok C ∧ C.rep = T.rep ∧ C.unit = T.unit := by
  obtain ⟨C, hC, hrep, hunit⟩ := commonType_eq (compiles_iff.mp (compiles_self T)).1
  refine ⟨C, hC, ?_, hunit.trans (commonUnit_self T)⟩
  rw [hrep, Rep.common, if_pos rfl]

theorem plus_spec (d : Duration T) :
    ∃ (C : DurationType) (x : Duration C), plus d = .ok (some ⟨C, x⟩) ∧
      C.unit = T.unit ∧ x.count = d.count := by
  obtain ⟨C, hC, hrep, hunit⟩ := commonType_self T
  obtain ⟨factor, hfactor, hden, hnum⟩ := exists_conversion_same hunit.symm
  have hfits : C.rep.Fits d.count := hrep ▸ d.fits
  refine ⟨C, ⟨d.count, hfits⟩, ?_, hunit, rfl⟩
  rw [plus, hC, ok_bind, hfactor, ok_bind, durationCast_same hden hnum hfits]
  rfl

theorem minus_spec {d : Duration T} (h : T.rep.Fits (-d.count)) :
    ∃ (C : DurationType) (x : Duration C), minus d = .ok (some ⟨C, x⟩) ∧
      C.unit = T.unit ∧ x.count = -d.count := by
  obtain ⟨C, hC, hrep, hunit⟩ := commonType_self T
  have hpromote : T.rep.promote.type.arith (-d.count) = some (-d.count) :=
    IntegerType.arith_of_fits (h.of_width_le T.rep.width_le_promote)
  refine ⟨C, Duration.ofNumber C (-d.count), ?_, hunit, ?_⟩
  · rw [minus, hC, ok_bind, hpromote]
    rfl
  · exact IntegerType.convert_of_fits (hrep ▸ h)

end Libhipcxx.Chrono
