import Libhipcxx.Chrono.DurationCast
import Libhipcxx.Support.Integral

/-!
# Implicit conversion of durations

The representation may be any integral type.  The converting constructor takes
part where the test for overflow admits the two periods and the quotient is a
whole number; it then casts.  The factor of the cast comes from a division of
its own, and the factor of the cast back is the reciprocal of it.
-/

namespace Libhipcxx.Chrono.Implicit

open Rational (Failure Ratio Representable require ratioDivide ok_bind)

/-- `duration<rep, period>`. -/
structure DurationType where
  rep : Integral
  period : Ratio
  period_pos : 0 < period.num

@[ext] structure Duration (T : DurationType) where
  count : ℤ
  fits : T.rep.Fits count
  deriving DecidableEq

variable {T U : DurationType}

/-- The explicit constructor from a number. -/
def Duration.ofNumber (T : DurationType) (x : ℤ) : Duration T :=
  ⟨T.rep.convert x, T.rep.fits_convert x⟩

/-- `__duration_cast`, with its four specialisations. -/
def durationCast (factor : Ratio) (U : DurationType) (d : Duration T) :
    Option (Duration U) :=
  let ct := (U.rep.withLong T.rep).type
  if factor.num = 1 then
    if factor.den = 1 then some (Duration.ofNumber U d.count)
    else do
      let count ← ct.arith ((ct.convert d.count).tdiv (ct.convert factor.den))
      return Duration.ofNumber U count
  else if factor.den = 1 then do
    let count ← ct.arith (ct.convert d.count * ct.convert factor.num)
    return Duration.ofNumber U count
  else do
    let product ← ct.arith (ct.convert d.count * ct.convert factor.num)
    let count ← ct.arith (product.tdiv (ct.convert factor.den))
    return Duration.ofNumber U count

/-- `duration_cast`. -/
def castTo (U : DurationType) (d : Duration T) :
    Except Failure (Option (Duration U)) := do
  let factor ← ratioDivide T.period U.period
  return durationCast factor U d

/-- The converting constructor takes part in overload resolution. -/
def enabled (T U : DurationType) : Except Failure Bool := do
  let (value, type) ← noOverflow T.period U.period
  return value && decide (type.den = 1)

/-- The converting constructor. -/
def ofDuration (U : DurationType) (d : Duration T) :
    Except Failure (Option (Duration U)) := do
  let enable ← enabled T U
  require (enable = true)
  castTo U d

/-! ## Times -/

def DurationType.unit (T : DurationType) : ℚ := T.period.value

def Duration.time (d : Duration T) : ℚ := d.count * T.unit

theorem DurationType.unit_pos (T : DurationType) : 0 < T.unit :=
  div_pos (Int.cast_pos.mpr T.period_pos) T.period.cast_den_pos

/-! ## The test of the constructor -/

/-- The constructor takes part where the quotient of the periods is a whole
number in range. -/
theorem enabled_eq (T U : DurationType) :
    enabled T U = .ok (decide ((T.unit / U.unit).den = 1 ∧
      (T.unit / U.unit).num ≤ Rational.max)) := by
  obtain ⟨type, hrun, htype⟩ := noOverflow_eq T.period_pos U.period_pos
  change _ = Except.ok (decide (Representable (T.unit / U.unit)), type) at hrun
  change Representable (T.unit / U.unit) → type.value = T.unit / U.unit at htype
  have hpos : 0 < (T.unit / U.unit).num :=
    Rat.num_pos.mpr (div_pos T.unit_pos U.unit_pos)
  have hiff : (Representable (T.unit / U.unit) ∧ type.den = 1) ↔
      ((T.unit / U.unit).den = 1 ∧ (T.unit / U.unit).num ≤ Rational.max) := by
    constructor
    · rintro ⟨hrep, hden⟩
      have hsame := type.den_value
      rw [htype hrep, hden] at hsame
      exact ⟨by exact_mod_cast hsame, (abs_le.mp hrep.1).2⟩
    · rintro ⟨hden, hle⟩
      have hrep : Representable (T.unit / U.unit) := by
        refine ⟨(abs_of_pos hpos).trans_le hle, ?_⟩
        rw [hden]
        decide
      refine ⟨hrep, ?_⟩
      rw [← type.den_value, htype hrep, hden]
      rfl
  rw [enabled, hrun, ok_bind]
  change Except.ok (decide _ && decide _) = _
  rw [← Bool.decide_and, decide_eq_decide.mpr hiff]

/-! ## The casts to and fro -/

/-- The division of the periods has the terms of their quotient. -/
theorem exists_factor (h : Representable (T.unit / U.unit)) :
    ∃ factor, ratioDivide T.period U.period = .ok factor ∧
      factor.num = (T.unit / U.unit).num ∧ factor.den = (T.unit / U.unit).den := by
  obtain ⟨factor, hfactor, hvalue⟩ := Rational.ratioDivide_eq U.period_pos.ne' h
  change factor.value = T.unit / U.unit at hvalue
  refine ⟨factor, hfactor, ?_, ?_⟩
  · rw [← hvalue, factor.num_value]
  · rw [← hvalue, factor.den_value]

/-- The factor of a cast by a whole number, and that of the cast back. -/
theorem exists_factors (hden : (T.unit / U.unit).den = 1)
    (hle : (T.unit / U.unit).num ≤ Rational.max) :
    ∃ factor back, ratioDivide T.period U.period = .ok factor ∧
      ratioDivide U.period T.period = .ok back ∧
      factor.den = 1 ∧ 0 < factor.num ∧ T.unit = factor.num * U.unit ∧
      back.num = 1 ∧ back.den = factor.num := by
  have hpos : 0 < T.unit / U.unit := div_pos T.unit_pos U.unit_pos
  have hnum := Rat.num_pos.mpr hpos
  have hone : ((1 : ℕ) : ℤ) ≤ Rational.max := by decide
  have hinv : U.unit / T.unit = (T.unit / U.unit)⁻¹ := (inv_div _ _).symm
  have hnum_inv : (U.unit / T.unit).num = 1 := by
    rw [hinv, Rat.num_inv, hden, Int.sign_eq_one_of_pos hnum]
    rfl
  have hden_inv : ((U.unit / T.unit).den : ℤ) = (T.unit / U.unit).num := by
    rw [hinv, Rat.den_inv_of_ne_zero hpos.ne', Int.natAbs_of_nonneg hnum.le]
  obtain ⟨factor, hfactor, hfactor_num, hfactor_den⟩ :=
    @exists_factor T U ⟨(abs_of_pos hnum).trans_le hle, hden.symm ▸ hone⟩
  obtain ⟨back, hback, hback_num, hback_den⟩ :=
    @exists_factor U T ⟨by rw [hnum_inv]; decide, hden_inv.trans_le hle⟩
  refine ⟨factor, back, hfactor, hback, ?_, hfactor_num ▸ hnum, ?_, ?_, ?_⟩
  · rw [hfactor_den, hden, Nat.cast_one]
  · have hvalue := Rat.num_div_den (T.unit / U.unit)
    rw [hden, Nat.cast_one, div_one, ← hfactor_num] at hvalue
    exact (div_eq_iff U.unit_pos.ne').mp hvalue.symm
  · rw [hback_num, hnum_inv]
  · rw [hback_den, hden_inv, hfactor_num]

theorem fits_term (r s : Integral) {x : ℤ} (hpos : 0 < x) (hle : |x| ≤ Rational.max) :
    (r.withLong s).type.Fits x :=
  Integral.fits_withLong_of_le r s hpos.le
    ((abs_le.mp hle).2.trans (by decide : Rational.max ≤ (Integral.type .long).max))

/-- A whole factor scales the count, whether the product wraps around or not. -/
theorem durationCast_whole {factor : Ratio} {d : Duration T} (hden : factor.den = 1)
    (hpos : 0 < factor.num) (hfits : U.rep.Fits (d.count * factor.num)) :
    durationCast factor U d = some ⟨d.count * factor.num, hfits⟩ := by
  have hwidth := (Integral.width_withLong U.rep T.rep).1
  have hresult (x : ℤ) (hx : U.rep.convert x = d.count * factor.num) :
      some (Duration.ofNumber U x) = some ⟨d.count * factor.num, hfits⟩ :=
    congrArg some (Duration.ext hx)
  simp only [durationCast, hden, ↓reduceIte]
  split
  · rename_i hone
    apply hresult
    rw [hone, mul_one] at hfits ⊢
    exact Integral.convert_of_fits hfits
  · have hproduct : (U.rep.withLong T.rep).type.arith
        ((U.rep.withLong T.rep).type.convert d.count *
          (U.rep.withLong T.rep).type.convert factor.num) =
        some ((U.rep.withLong T.rep).type.convert (d.count * factor.num)) := by
      apply IntegerType.arith_mul_convert
      intro hsigned
      refine ⟨?_, fits_term _ _ hpos factor.num_le,
        Integral.fits_withLong _ hfits (Or.inr hsigned)⟩
      rw [Integral.withLong_comm] at hsigned ⊢
      exact Integral.fits_withLong _ d.fits (Or.inr hsigned)
    rw [hproduct]
    exact hresult _ (Integral.convert_convert hfits hwidth)

/-- The reciprocal of a whole factor divides without remainder. -/
theorem durationCast_reciprocal {factor : Ratio} {d : Duration T} {e : Duration U}
    (hnum : factor.num = 1) (he : e.count = d.count * factor.den) :
    durationCast factor T e = some d := by
  have hden := factor.den_pos
  have hresult : some (Duration.ofNumber T d.count) = some d :=
    congrArg some (Duration.ext (Integral.convert_of_fits d.fits))
  -- A negative count is one of two signed types, and then so is the common type.
  have hsign (h : ¬0 ≤ d.count) : (T.rep.withLong U.rep).signed = true := by
    have hneg : ¬0 ≤ e.count := by
      rw [he]
      exact not_le.mpr (mul_neg_of_neg_of_pos (not_le.mp h) hden)
    exact Integral.withLong_signed (Integral.signed_of_neg d.fits h)
      (Integral.signed_of_neg e.fits hneg)
  simp only [durationCast, hnum, ↓reduceIte]
  split
  · rename_i hone
    rw [he, hone, mul_one]
    exact hresult
  · have hd : (T.rep.withLong U.rep).type.Fits d.count :=
      Integral.fits_withLong _ d.fits (or_iff_not_imp_left.mpr hsign)
    have hcount : (T.rep.withLong U.rep).type.Fits e.count := by
      rw [Integral.withLong_comm] at hsign ⊢
      refine Integral.fits_withLong _ e.fits (or_iff_not_imp_left.mpr ?_)
      intro hneg
      apply hsign
      intro hpos
      exact hneg (he ▸ mul_nonneg hpos hden.le)
    rw [IntegerType.convert_of_fits hcount,
      IntegerType.convert_of_fits (fits_term _ _ hden factor.abs_den_le), he,
      Int.mul_tdiv_cancel _ hden.ne', IntegerType.arith_of_fits hd]
    exact hresult

/-! ## Signed representations -/

def ofRep : Rep → Integral
  | .char => .char
  | .signedChar => .signedChar
  | .wchar => .wchar
  | .short => .short
  | .int => .int
  | .long => .long
  | .longLong => .longLong
  | .int128 => .int128

theorem ofRep_common (r s : Rep) :
    ofRep (r.common s) = (ofRep r).common (ofRep s) := by
  cases r <;> cases s <;> decide

theorem ofRep_ne_bool (r : Rep) : ofRep r ≠ .bool := by
  cases r <;> decide

theorem type_ofRep (r : Rep) : (ofRep r).type = r.type := by
  cases r <;> rfl

theorem fits_ofRep {r : Rep} {x : ℤ} (h : r.Fits x) : (ofRep r).Fits x := by
  rwa [Integral.Fits, if_neg (ofRep_ne_bool r), type_ofRep]

def DurationType.ofSigned (T : Chrono.DurationType) : DurationType :=
  ⟨ofRep T.rep, T.period, T.period_pos⟩

def Duration.ofSigned {T : Chrono.DurationType} (d : Chrono.Duration T) :
    Duration (DurationType.ofSigned T) :=
  ⟨d.count, fits_ofRep d.fits⟩

theorem ofNumber_ofSigned (T : Chrono.DurationType) (x : ℤ) :
    Duration.ofNumber (DurationType.ofSigned T) x =
      Duration.ofSigned (Chrono.Duration.ofNumber T x) := by
  apply Duration.ext
  change (ofRep T.rep).convert x = T.rep.type.convert x
  rw [Integral.convert, if_neg (ofRep_ne_bool T.rep), type_ofRep]

/-- On signed representations the cast is the one of the signed model. -/
theorem castTo_ofSigned {T : Chrono.DurationType} (U : Chrono.DurationType)
    (d : Chrono.Duration T) :
    castTo (DurationType.ofSigned U) (Duration.ofSigned d) =
      (Chrono.castTo U d).map (Option.map Duration.ofSigned) := by
  have hct : ((ofRep U.rep).withLong (ofRep T.rep)).type =
      ((U.rep.common T.rep).common .long).type := by
    rw [Integral.withLong, ← ofRep_common,
      show Integral.long = ofRep .long from rfl, ← ofRep_common, type_ofRep]
  have hcast (factor : Ratio) :
      durationCast factor (DurationType.ofSigned U) (Duration.ofSigned d) =
        (Chrono.durationCast factor U d).map Duration.ofSigned := by
    change ((DurationType.ofSigned U).rep.withLong
      (DurationType.ofSigned T).rep).type = _ at hct
    simp only [durationCast, Chrono.durationCast, ofNumber_ofSigned, hct,
      Option.bind_eq_bind, apply_ite (Option.map Duration.ofSigned), Option.map_bind,
      Option.map_some, Function.comp_def]
    rfl
  rw [castTo, Chrono.castTo]
  change (ratioDivide T.period U.period >>= _) = _
  cases ratioDivide T.period U.period with
  | error failure => rfl
  | ok factor => exact congrArg Except.ok (hcast factor)

theorem enabled_ofSigned (T U : Chrono.DurationType) :
    enabled (DurationType.ofSigned T) (DurationType.ofSigned U) = .ok true ↔
      ∃ factor, conversion T U = .ok factor := by
  rw [enabled_eq, Except.ok.injEq, decide_eq_true_eq]
  change (T.unit / U.unit).den = 1 ∧ (T.unit / U.unit).num ≤ Rational.max ↔ _
  constructor
  · rintro ⟨hden, hle⟩
    have hvalue := Rat.num_div_den (T.unit / U.unit)
    rw [hden, Nat.cast_one, div_one] at hvalue
    apply exists_conversion ((div_eq_iff U.unit_pos.ne').mp hvalue.symm)
    rw [← hvalue]
    exact Int.cast_le.mpr hle
  · rintro ⟨factor, hfactor⟩
    obtain ⟨-, hunit⟩ := conversion_eq_ok_iff.mp hfactor
    have hvalue : T.unit / U.unit = factor.num :=
      (div_eq_iff U.unit_pos.ne').mpr hunit
    rw [hvalue, Rat.den_intCast, Rat.num_intCast]
    exact ⟨rfl, (abs_le.mp factor.num_le).2⟩

/-! ## Nothing is lost -/

/-- The test for overflow is itself computed without overflow, and asks whether
the terms of the quotient of the periods are in range.  The constructor takes
part where the quotient is a whole number in range.  It then keeps the time of
every duration whose scaled count the target has, and a cast back returns the
duration. -/
theorem implicit_conversion_lossless (T U : DurationType) :
    (∃ type, noOverflow T.period U.period =
        .ok (decide (Representable (T.unit / U.unit)), type) ∧
      (Representable (T.unit / U.unit) → type.value = T.unit / U.unit)) ∧
    enabled T U = .ok (decide ((T.unit / U.unit).den = 1 ∧
      (T.unit / U.unit).num ≤ Rational.max)) ∧
    (enabled T U = .ok true →
      ∀ (d : Duration T) (k : ℤ), U.rep.Fits k → d.time = k * U.unit →
        ∃ e : Duration U, ofDuration U d = .ok (some e) ∧ e.time = d.time ∧
          castTo T e = .ok (some d)) := by
  refine ⟨noOverflow_eq T.period_pos U.period_pos, enabled_eq T U, ?_⟩
  intro henabled d k hfits hk
  have htest := henabled
  rw [enabled_eq] at htest
  obtain ⟨hden, hle⟩ := of_decide_eq_true (Except.ok.inj htest)
  obtain ⟨factor, back, hfactor, hback, hwhole, hpos, hunit, hback_num, hback_den⟩ :=
    exists_factors hden hle
  have htime : d.time = ((d.count * factor.num : ℤ) : ℚ) * U.unit := by
    rw [Duration.time, hunit, Int.cast_mul, mul_assoc]
  obtain rfl : k = d.count * factor.num := by
    rw [htime] at hk
    exact_mod_cast (mul_right_cancel₀ U.unit_pos.ne' hk).symm
  refine ⟨⟨d.count * factor.num, hfits⟩, ?_, htime.symm, ?_⟩
  · rw [ofDuration, henabled, ok_bind, Rational.require_true rfl, ok_bind, castTo,
      hfactor, ok_bind, durationCast_whole hwhole hpos hfits]
    rfl
  · rw [castTo, hback, ok_bind,
      durationCast_reciprocal hback_num (congrArg (d.count * ·) hback_den).symm]
    rfl

/-- Two minutes in a byte become milliseconds in `unsigned long`. -/
theorem implicit_conversion_lossless_minutes :
    let T : DurationType :=
      ⟨.unsignedChar, ⟨60, 1, by decide, by decide, by decide, isCoprime_one_right⟩,
        by decide⟩
    let U : DurationType :=
      ⟨.unsignedLong, ⟨1, 1000, by decide, by decide, by decide, isCoprime_one_left⟩,
        by decide⟩
    ∃ e : Duration U, ofDuration U (⟨2, by decide⟩ : Duration T) = .ok (some e) ∧
      e.time = 120 ∧ castTo T e = .ok (some ⟨2, by decide⟩) := by
  intro T U
  have henabled : enabled T U = .ok true := by decide +kernel
  obtain ⟨e, hconvert, htime, hback⟩ :=
    (implicit_conversion_lossless T U).2.2 henabled ⟨2, by decide⟩ 120000 (by decide)
      (by decide +kernel)
  refine ⟨e, hconvert, ?_, hback⟩
  rw [htime]
  decide +kernel

end Libhipcxx.Chrono.Implicit
