import Libhipcxx.Chrono.Duration
import Libhipcxx.Rational.CommonPeriod
import Mathlib.Tactic.Positivity

/-!
# The time that a duration denotes

A duration denotes its count times its period, a rational number.  The common
period of two types divides both periods, so the conversions multiply by whole
numbers and lose nothing: comparison and arithmetic on converted counts are
comparison and arithmetic of times, as long as the scaled counts fit.
-/

namespace Libhipcxx.Chrono

open Rational

variable {T U V : DurationType}

/-! ## Times -/

/-- The period as a rational number of seconds. -/
def DurationType.unit (T : DurationType) : ℚ := T.period.value

def Duration.time (d : Duration T) : ℚ := d.count * T.unit

theorem DurationType.unit_pos (T : DurationType) : 0 < T.unit :=
  div_pos (Int.cast_pos.mpr T.period_pos) T.period.cast_den_pos

/-- The greatest unit that both periods are multiples of. -/
def commonUnit (T U : DurationType) : ℚ :=
  (Int.gcd T.period.num U.period.num : ℚ) / Int.lcm T.period.den U.period.den

theorem commonUnit_comm (T U : DurationType) : commonUnit T U = commonUnit U T := by
  rw [commonUnit, commonUnit, Int.gcd_comm, Int.lcm_comm]

theorem gcd_num_pos (T U : DurationType) :
    0 < Int.gcd T.period.num U.period.num :=
  Int.gcd_pos_of_ne_zero_left _ T.period_pos.ne'

theorem lcm_den_pos (T U : DurationType) :
    0 < Int.lcm T.period.den U.period.den :=
  Int.lcm_pos T.period.den_pos.ne' U.period.den_pos.ne'

theorem commonUnit_pos (T U : DurationType) : 0 < commonUnit T U :=
  div_pos (Nat.cast_pos.mpr (gcd_num_pos T U)) (Nat.cast_pos.mpr (lcm_den_pos T U))

/-- A period is a whole multiple of the common unit. -/
theorem exists_multiple (T U : DurationType) :
    ∃ k : ℤ, T.unit = k * commonUnit T U :=
  CommonUnit.isMultiple_left _ _ T.period.den_pos.ne' U.period.den_pos.ne'

/-! ## What compiles -/

theorem le_max_tdiv {a b : ℤ} (hb : 0 < b) :
    a ≤ Rational.max.tdiv b ↔ a * b ≤ Rational.max := by
  rw [Int.tdiv_eq_ediv_of_nonneg max_pos.le, Int.le_ediv_iff_mul_le hb]

/-- The test for overflow asks whether the quotient of the periods has a
ratio, and that ratio is its `type`. -/
theorem noOverflow_eq {R₁ R₂ : Ratio} (h₁ : 0 < R₁.num) (h₂ : 0 < R₂.num) :
    ∃ factor,
      noOverflow R₁ R₂ =
        .ok (decide (Representable (R₁.value / R₂.value)), factor) ∧
      (Representable (R₁.value / R₂.value) →
        factor.value = R₁.value / R₂.value) := by
  obtain ⟨g, a, c, hg⟩ := exists_cancelled R₁.num_le R₂.num_le
  obtain ⟨h, d, b, hh⟩ := exists_cancelled R₁.abs_den_le R₂.abs_den_le
  obtain ⟨hden, hcop, hvalue⟩ := quotient_cancelled hg hh h₂.ne'
  have hgpos : 0 < g := hg.gcd_pos h₁.le h₂.le
  have hhpos : 0 < h := hh.gcd_pos R₁.den_pos.le R₂.den_pos.le
  have ha : 0 < a := pos_of_mul_pos_right (hg.left_eq ▸ h₁) hgpos.le
  have hc : 0 < c := pos_of_mul_pos_right (hg.right_eq ▸ h₂) hgpos.le
  have hd : 0 < d := pos_of_mul_pos_right (hh.left_eq ▸ R₁.den_pos) hhpos.le
  have hb : 0 < b := pos_of_mul_pos_right (hh.right_eq ▸ R₂.den_pos) hhpos.le
  have habsN : |a * b| = a * b := abs_of_pos (mul_pos ha hb)
  have habsD : |c * d| = c * d := abs_of_pos (mul_pos hc hd)
  have hvalid : (a ≤ Rational.max.tdiv b ∧ c ≤ Rational.max.tdiv d) ↔
      Representable (R₁.value / R₂.value) := by
    rw [hvalue, representable_div hden hcop, le_max_tdiv hb, le_max_tdiv hd,
      habsN, habsD]
  have hrun : noOverflow R₁ R₂ = do
      let value := decide (Representable (R₁.value / R₂.value))
      let num ← if value then intmax (a * b) else .ok 1
      let den ← if value then intmax (c * d) else .ok 1
      return (value, ← ratio num den) := by
    simp only [noOverflow, hg.gcd_eq, hh.gcd_eq, hg.left_quotient,
      hg.right_quotient, hh.left_quotient, hh.right_quotient, ok_bind, hvalid]
  by_cases hrep : Representable (R₁.value / R₂.value)
  · obtain ⟨hn, hd⟩ := (representable_div hden hcop).mp (hvalue ▸ hrep)
    obtain ⟨factor, hfactor, hsame⟩ := ratio_eq hn hd hden
    refine ⟨factor, ?_, fun _ => hsame.trans hvalue.symm⟩
    rw [hrun]
    simp only [hrep, decide_true, if_true, intmax_of_abs_le hn,
      intmax_of_abs_le hd, ok_bind, hfactor]
    rfl
  · obtain ⟨factor, hfactor, -⟩ :=
      @ratio_eq 1 1 (by decide) (by decide) (by decide)
    refine ⟨factor, ?_, fun h => absurd h hrep⟩
    rw [hrun]
    simp only [hrep, decide_false, ok_bind, hfactor]
    rfl

theorem value_of_den_one {R : Ratio} (h : R.den = 1) : R.value = R.num := by
  rw [Ratio.value, h, Int.cast_one, div_one]

/-- A conversion takes part exactly where the periods have a whole quotient in
range, and that quotient is its factor. -/
theorem conversion_eq_ok_iff {factor : Ratio} :
    conversion T U = .ok factor ↔
      factor.den = 1 ∧ T.unit = factor.num * U.unit := by
  obtain ⟨type, hrun, htype⟩ := noOverflow_eq T.period_pos U.period_pos
  have hunit : U.period.value ≠ 0 := U.unit_pos.ne'
  have hval : factor.den = 1 → (T.unit = factor.num * U.unit ↔
      factor.value = T.period.value / U.period.value) := by
    intro hden
    rw [value_of_den_one hden, eq_div_iff hunit, eq_comm]
    rfl
  simp only [conversion, hrun, ok_bind, bind_eq_ok, require_eq_ok,
    decide_eq_true_eq]
  constructor
  · rintro ⟨-, ⟨hrep, hden⟩, hfactor⟩
    have hsame : factor.value = T.period.value / U.period.value := by
      have hexact := (ratioDivide_spec T.period U.period U.period_pos.ne').1
      rw [hfactor] at hexact
      exact hexact.value_eq
    have heq : factor = type := Ratio.value_injective (hsame.trans (htype hrep).symm)
    rw [← heq] at hden
    exact ⟨hden, (hval hden).mpr hsame⟩
  · rintro ⟨hden, htime⟩
    have hsame := (hval hden).mp htime
    have hrep : Representable (T.period.value / U.period.value) :=
      hsame ▸ factor.representable_value
    have heq : factor = type := Ratio.value_injective (hsame.trans (htype hrep).symm)
    refine ⟨(), ⟨hrep, heq ▸ hden⟩, ?_⟩
    obtain ⟨R, hR, hvalue⟩ := ratioDivide_eq U.period_pos.ne' hrep
    rw [hR, Ratio.value_injective (hvalue.trans hsame.symm)]

theorem durationType_eq (rep : Rep) {num den : ℤ} (hnum : 0 < num)
    (hden : 0 < den) (hnum_le : num ≤ Rational.max)
    (hden_le : den ≤ Rational.max) :
    ∃ C, durationType rep num den = .ok C ∧ C.rep = rep ∧
      C.unit = num / den := by
  obtain ⟨period, hperiod, hvalue⟩ :=
    ratio_eq ((abs_of_pos hnum).trans_le hnum_le)
      ((abs_of_pos hden).trans_le hden_le) hden.ne'
  have hpos : 0 < period.num := by
    rw [period.num_pos_iff, hvalue]
    exact div_pos (Int.cast_pos.mpr hnum) (Int.cast_pos.mpr hden)
  refine ⟨⟨rep, num, den, period, hperiod, hpos⟩, ?_, rfl, hvalue⟩
  rw [durationType]
  split
  · rename_i period' h
    obtain rfl : period' = period := Except.ok.inj (h.symm.trans hperiod)
    rw [dif_pos hpos]
  · rename_i failure h
    rw [h] at hperiod
    cases hperiod

theorem commonType_run (T U : DurationType) :
    commonType T U =
      intmax (Int.lcm T.period.den U.period.den) >>=
        durationType (T.rep.common U.rep)
          (Int.gcd T.period.num U.period.num) := by
  have hT := (abs_le.mp T.period.num_le).2
  have hU := (abs_le.mp U.period.num_le).2
  simp only [commonType, staticGcd_of_pos T.period_pos U.period_pos hT hU,
    staticLcm_of_pos T.period.den_pos U.period.den_pos T.period.den_le
      U.period.den_le, ok_bind]

/-- Where the common denominator is in range there is a common type, with the
common unit as its period. -/
theorem commonType_eq
    (hle : (Int.lcm T.period.den U.period.den : ℤ) ≤ Rational.max) :
    ∃ C, commonType T U = .ok C ∧ C.rep = T.rep.common U.rep ∧
      C.unit = commonUnit T U := by
  have hgcd : 0 < (Int.gcd T.period.num U.period.num : ℤ) :=
    Nat.cast_pos.mpr (gcd_num_pos T U)
  have hlcm : 0 < (Int.lcm T.period.den U.period.den : ℤ) :=
    Nat.cast_pos.mpr (lcm_den_pos T U)
  have hgcd_le : (Int.gcd T.period.num U.period.num : ℤ) ≤ Rational.max :=
    (Int.le_of_dvd T.period_pos (Int.gcd_dvd_left _ _)).trans
      (abs_le.mp T.period.num_le).2
  rw [commonType_run, intmax_of_abs_le ((abs_of_pos hlcm).trans_le hle), ok_bind]
  exact durationType_eq _ hgcd hlcm hgcd_le hle

theorem lcm_le_of_commonType {C : DurationType} (h : commonType T U = .ok C) :
    (Int.lcm T.period.den U.period.den : ℤ) ≤ Rational.max := by
  rw [commonType_run, bind_eq_ok] at h
  obtain ⟨den, hden, -⟩ := h
  exact (abs_le_of_intmax hden).2.2

theorem commonType_spec {C : DurationType} (h : commonType T U = .ok C) :
    C.rep = T.rep.common U.rep ∧ C.unit = commonUnit T U := by
  obtain ⟨C', hC', hspec⟩ := commonType_eq (lcm_le_of_commonType h)
  obtain rfl : C' = C := Except.ok.inj (hC'.symm.trans h)
  exact hspec

/-! ## Operands -/

def Compiles (T U : DurationType) : Prop := ∃ ops, operands T U = .ok ops

/-- The operands are counted in the common unit: each factor is the whole
number by which it multiplies. -/
theorem operands_eq {ops : Operands} (h : operands T U = .ok ops) :
    ops.common.rep = T.rep.common U.rep ∧
    ops.common.unit = commonUnit T U ∧
    (ops.left.den = 1 ∧ T.unit = ops.left.num * commonUnit T U) ∧
    (ops.right.den = 1 ∧ U.unit = ops.right.num * commonUnit T U) := by
  simp only [operands, bind_eq_ok] at h
  obtain ⟨common, hcommon, left, hleft, right, hright, heq⟩ := h
  obtain rfl := Except.ok.inj heq
  obtain ⟨hrep, hunit⟩ := commonType_spec hcommon
  rw [← hunit]
  exact ⟨hrep, rfl, conversion_eq_ok_iff.mp hleft,
    conversion_eq_ok_iff.mp hright⟩

/-- A whole number in range is a ratio. -/
theorem exists_factor {k : ℤ} (hpos : 0 ≤ k) (hle : k ≤ Rational.max) :
    ∃ R : Ratio, R.num = k ∧ R.den = 1 :=
  ⟨⟨k, 1, one_pos, by decide, (abs_of_nonneg hpos).trans_le hle,
    isCoprime_one_right⟩, rfl, rfl⟩

theorem exists_conversion {C : DurationType} {k : ℤ} (hunit : T.unit = k * C.unit)
    (hle : T.unit / C.unit ≤ Rational.max) :
    ∃ factor, conversion T C = .ok factor := by
  have hquotient : T.unit / C.unit = k := by
    rw [hunit, mul_div_cancel_right₀ _ C.unit_pos.ne']
  have hpos : 0 < T.unit / C.unit := div_pos T.unit_pos C.unit_pos
  rw [hquotient] at hle hpos
  obtain ⟨R, hnum, hden⟩ :=
    exists_factor (Int.cast_pos.mp hpos).le (Int.cast_le.mp hle)
  exact ⟨R, conversion_eq_ok_iff.mpr ⟨hden, hnum ▸ hunit⟩⟩

theorem conversion_le {C : DurationType} {factor : Ratio}
    (hunit : T.unit = factor.num * C.unit) : T.unit / C.unit ≤ Rational.max := by
  rw [hunit, mul_div_cancel_right₀ _ C.unit_pos.ne']
  exact Int.cast_le.mpr (abs_le.mp factor.num_le).2

/-- What compiles: the common denominator and the two factors are in range. -/
theorem compiles_iff :
    Compiles T U ↔
      (Int.lcm T.period.den U.period.den : ℤ) ≤ Rational.max ∧
      T.unit / commonUnit T U ≤ Rational.max ∧
      U.unit / commonUnit T U ≤ Rational.max := by
  constructor
  · rintro ⟨ops, hops⟩
    obtain ⟨-, hunit, ⟨hleft, hT⟩, ⟨hright, hU⟩⟩ := operands_eq hops
    simp only [operands, bind_eq_ok] at hops
    obtain ⟨common, hcommon, -⟩ := hops
    rw [← hunit] at hT hU ⊢
    exact ⟨lcm_le_of_commonType hcommon, conversion_le hT,
      conversion_le hU⟩
  · rintro ⟨hlcm, hT, hU⟩
    obtain ⟨C, hC, -, hunit⟩ := commonType_eq hlcm
    obtain ⟨k, hk⟩ := exists_multiple T U
    obtain ⟨l, hl⟩ := exists_multiple U T
    rw [commonUnit_comm U T] at hl
    rw [← hunit] at hT hU hk hl
    obtain ⟨left, hleft⟩ := exists_conversion hk hT
    obtain ⟨right, hright⟩ := exists_conversion hl hU
    refine ⟨⟨C, left, right⟩, ?_⟩
    simp only [operands, bind_eq_ok]
    exact ⟨C, hC, left, hleft, right, hright, rfl⟩

theorem Compiles.symm (h : Compiles T U) : Compiles U T := by
  rw [compiles_iff] at h ⊢
  rw [Int.lcm_comm, commonUnit_comm]
  exact ⟨h.1, h.2.2, h.2.1⟩

theorem commonUnit_self (T : DurationType) : commonUnit T T = T.unit := by
  rw [commonUnit, Int.gcd_self, Int.lcm_self, DurationType.unit, Ratio.value,
    ← Int.cast_natCast, ← Int.cast_natCast (n := T.period.den.natAbs),
    Int.natAbs_of_nonneg T.period_pos.le,
    Int.natAbs_of_nonneg T.period.den_pos.le]

/-- The operators exist for two durations of one type. -/
theorem compiles_self (T : DurationType) : Compiles T T := by
  have hpos := T.period.den_pos
  have hone : (1 : ℚ) ≤ Rational.max := by
    exact_mod_cast (by decide : (1 : ℤ) ≤ Rational.max)
  rw [compiles_iff, commonUnit_self, div_self T.unit_pos.ne', Int.lcm_self,
    Int.natAbs_of_nonneg hpos.le]
  exact ⟨T.period.den_le, hone, hone⟩

/-! ## Conversion of counts -/

/-- A time counted in the common unit and representation. -/
def Expressible (T U : DurationType) (t : ℚ) : Prop :=
  ∃ k : ℤ, (T.rep.common U.rep).Fits k ∧ t = k * commonUnit T U

theorem Expressible.symm {t : ℚ} (h : Expressible T U t) : Expressible U T t := by
  rwa [Expressible, Rep.common_comm, commonUnit_comm]

/-- The type that a cast computes in. -/
abbrev castRep (T U : DurationType) : Rep := (U.rep.common T.rep).common .long

theorem fits_castRep_left {x : ℤ} (U : DurationType) (h : T.rep.Fits x) :
    (castRep T U).Fits x := by
  rw [castRep, Rep.common_comm U.rep]
  exact h.of_width_le
    ((Rep.width_le_common_left _ _).trans (Rep.width_le_common_left _ _))

theorem fits_castRep_right {x : ℤ} (T : DurationType) (h : U.rep.Fits x) :
    (castRep T U).Fits x :=
  h.of_width_le ((Rep.width_le_common_left _ _).trans (Rep.width_le_common_left _ _))

theorem fits_castRep_intmax {x : ℤ} (T U : DurationType) (h : |x| ≤ Rational.max) :
    (castRep T U).Fits x := by
  have hlong : Rep.long.width ≤ (castRep T U).width := by
    rw [castRep, Rep.common_comm]
    exact Rep.width_le_common_left _ _
  refine Rep.Fits.of_width_le (r := Rep.long) ?_ hlong
  have hbound := abs_le.mp h
  have hmin : Rep.long.type.min ≤ -Rational.max := by decide
  have hmax : Rational.max ≤ Rep.long.type.max := by decide
  exact ⟨hmin.trans hbound.1, hbound.2.trans hmax⟩

/-- A conversion by a whole factor multiplies the count in the common type, and
then converts it. -/
theorem durationCast_whole {C : DurationType} {factor : Ratio} {d : Duration T}
    (hden : factor.den = 1) :
    durationCast factor C d =
      if ((C.rep.common T.rep).common .long).Fits (d.count * factor.num) then
        some (Duration.ofNumber C (d.count * factor.num))
      else none := by
  have hcount := fits_castRep_left C d.fits
  have hfactor := fits_castRep_intmax T C factor.num_le
  simp only [durationCast, hden, ↓reduceIte]
  split
  · rename_i hone
    rw [hone, mul_one, if_pos hcount]
  · rw [IntegerType.convert_of_fits hcount, IntegerType.convert_of_fits hfactor]
    split
    · rename_i hfits
      rw [IntegerType.arith_of_fits hfits]
      rfl
    · rename_i hfits
      have hnone : ((C.rep.common T.rep).common .long).type.arith
          (d.count * factor.num) = none := if_neg hfits
      rw [hnone]
      rfl

/-- A conversion by a whole factor multiplies the count, where that fits. -/
theorem durationCast_eq {C : DurationType} {factor : Ratio} {d : Duration T}
    (hden : factor.den = 1)
    (hfits : C.rep.Fits (d.count * factor.num)) :
    durationCast factor C d = some ⟨d.count * factor.num, hfits⟩ := by
  rw [durationCast_whole hden, if_pos (fits_castRep_right T hfits)]
  exact congrArg some (Duration.ext (IntegerType.convert_of_fits hfits))

/-- Two durations that the operators take, and whose counts can be scaled to
the common period in the common representation. -/
structure Comparable (lhs : Duration T) (rhs : Duration U) : Prop where
  compiles : Compiles T U
  left : Expressible T U lhs.time
  right : Expressible T U rhs.time

theorem Comparable.symm {lhs : Duration T} {rhs : Duration U}
    (h : Comparable lhs rhs) : Comparable rhs lhs :=
  ⟨h.compiles.symm, h.right.symm, h.left.symm⟩

/-- A count that can be scaled is scaled. -/
theorem durationCast_expressible {C : DurationType} {factor : Ratio}
    {d : Duration T} (hrep : C.rep = T.rep.common U.rep)
    (hden : factor.den = 1) (hfactor : T.unit = factor.num * commonUnit T U)
    (hd : Expressible T U d.time) :
    ∃ x, durationCast factor C d = some x ∧ d.time = x.count * commonUnit T U := by
  obtain ⟨k, hfits, hk⟩ := hd
  have htime : d.time = ((d.count * factor.num : ℤ) : ℚ) * commonUnit T U := by
    rw [Duration.time, hfactor, Int.cast_mul, mul_assoc]
  have hsame : k = d.count * factor.num := by
    have h := mul_right_cancel₀ (commonUnit_pos T U).ne' (hk.symm.trans htime)
    exact_mod_cast h
  exact ⟨_, durationCast_eq hden (hrep ▸ hsame ▸ hfits), htime⟩

theorem counts_eq {ops : Operands} (hops : operands T U = .ok ops)
    {lhs : Duration T} {rhs : Duration U} (h : Comparable lhs rhs) :
    ∃ x y : ℤ, ops.counts lhs rhs = some (x, y) ∧
      lhs.time = x * commonUnit T U ∧ rhs.time = y * commonUnit T U := by
  obtain ⟨hrep, -, ⟨hleft, hT⟩, ⟨hright, hU⟩⟩ := operands_eq hops
  rw [commonUnit_comm] at hU
  obtain ⟨x, hx, hlhs⟩ := durationCast_expressible hrep hleft hT h.left
  obtain ⟨y, hy, hrhs⟩ := durationCast_expressible
    (hrep.trans (Rep.common_comm _ _)) hright hU h.right.symm
  rw [commonUnit_comm] at hrhs
  refine ⟨x.count, y.count, ?_, hlhs, hrhs⟩
  rw [Operands.counts, hx, hy]
  rfl

/-- A comparison compares two counts of one unit. -/
theorem compareCounts_eq {lhs : Duration T} {rhs : Duration U}
    (h : Comparable lhs rhs) :
    ∃ (unit : ℚ) (x y : ℤ), 0 < unit ∧ lhs.time = x * unit ∧
      rhs.time = y * unit ∧
      ∀ rel, compareCounts rel lhs rhs = .ok (some (rel x y)) := by
  by_cases hTU : T = U
  · subst hTU
    refine ⟨T.unit, lhs.count, rhs.count, T.unit_pos, rfl, rfl, ?_⟩
    intro rel
    rw [compareCounts, if_pos rfl]
  · obtain ⟨ops, hops⟩ := h.compiles
    obtain ⟨x, y, hcounts, hlhs, hrhs⟩ := counts_eq hops h
    refine ⟨commonUnit T U, x, y, commonUnit_pos T U, hlhs, hrhs, ?_⟩
    intro rel
    rw [compareCounts, if_neg hTU, hops, ok_bind, hcounts]
    rfl

/-! ## Comparison is comparison of times -/

theorem eq_spec {lhs : Duration T} {rhs : Duration U} (h : Comparable lhs rhs) :
    eq lhs rhs = .ok (some (decide (lhs.time = rhs.time))) := by
  obtain ⟨unit, x, y, hpos, hlhs, hrhs, hrun⟩ := compareCounts_eq h
  have hiff : lhs.time = rhs.time ↔ x = y := by
    rw [hlhs, hrhs, mul_left_inj' hpos.ne', Int.cast_inj]
  rw [eq, hrun, decide_eq_decide.mpr hiff]
  rfl

theorem lt_spec {lhs : Duration T} {rhs : Duration U} (h : Comparable lhs rhs) :
    lt lhs rhs = .ok (some (decide (lhs.time < rhs.time))) := by
  obtain ⟨unit, x, y, hpos, hlhs, hrhs, hrun⟩ := compareCounts_eq h
  have hiff : lhs.time < rhs.time ↔ x < y := by
    rw [hlhs, hrhs, mul_lt_mul_iff_left₀ hpos, Int.cast_lt]
  rw [lt, hrun, decide_eq_decide.mpr hiff]

theorem ne_spec {lhs : Duration T} {rhs : Duration U} (h : Comparable lhs rhs) :
    ne lhs rhs = .ok (some (decide (lhs.time ≠ rhs.time))) := by
  rw [ne, eq_spec h, decide_not]
  rfl

theorem gt_spec {lhs : Duration T} {rhs : Duration U} (h : Comparable lhs rhs) :
    gt lhs rhs = .ok (some (decide (rhs.time < lhs.time))) :=
  lt_spec h.symm

theorem le_spec {lhs : Duration T} {rhs : Duration U} (h : Comparable lhs rhs) :
    le lhs rhs = .ok (some (decide (lhs.time ≤ rhs.time))) := by
  rw [le, lt_spec h.symm, ← decide_eq_decide.mpr not_lt, decide_not]
  rfl

theorem ge_spec {lhs : Duration T} {rhs : Duration U} (h : Comparable lhs rhs) :
    ge lhs rhs = .ok (some (decide (rhs.time ≤ lhs.time))) := by
  rw [ge, lt_spec h, ← decide_eq_decide.mpr not_lt, decide_not]
  rfl

/-! ## Sum and difference -/

/-- The result of `operator+` or `operator-` denotes the given time. -/
def Denotes (e : Except Failure (Option ((C : DurationType) × Duration C)))
    (t : ℚ) : Prop :=
  ∃ (C : DurationType) (d : Duration C), e = .ok (some ⟨C, d⟩) ∧ d.time = t

theorem combine_spec {op : ℤ → ℤ → ℤ} {lhs : Duration T} {rhs : Duration U}
    {t : ℚ} (h : Comparable lhs rhs) (ht : Expressible T U t)
    (hop : ∀ x y : ℤ, lhs.time = x * commonUnit T U →
      rhs.time = y * commonUnit T U → t = (op x y : ℤ) * commonUnit T U) :
    Denotes (combine op lhs rhs) t := by
  obtain ⟨ops, hops⟩ := h.compiles
  obtain ⟨hrep, hunit, -, -⟩ := operands_eq hops
  obtain ⟨x, y, hcounts, hlhs, hrhs⟩ := counts_eq hops h
  obtain ⟨k, hfits, hk⟩ := ht
  have hsame : k = op x y := by
    have hcancel := mul_right_cancel₀ (commonUnit_pos T U).ne'
      (hk.symm.trans (hop x y hlhs hrhs))
    exact_mod_cast hcancel
  rw [hsame, ← hrep] at hfits
  have hpromote : ops.common.rep.promote.type.arith (op x y) =
      some (op x y) :=
    IntegerType.arith_of_fits (hfits.of_width_le (Rep.width_le_promote _))
  refine ⟨ops.common, Duration.ofNumber ops.common (op x y), ?_, ?_⟩
  · rw [combine, hops, ok_bind, hcounts]
    simp only [Option.bind_eq_bind, Option.bind_some, hpromote]
    rfl
  · rw [Duration.time, hunit, hk, hsame]
    congr 2
    exact IntegerType.convert_of_fits hfits

/-- The result is a duration of the common type. -/
theorem combine_commonType {op : ℤ → ℤ → ℤ} {lhs : Duration T} {rhs : Duration U}
    {C : DurationType} {d : Duration C}
    (h : combine op lhs rhs = .ok (some ⟨C, d⟩)) :
    commonType T U = .ok C ∧ C.rep = T.rep.common U.rep := by
  rw [combine, bind_eq_ok] at h
  obtain ⟨ops, hops, hrun⟩ := h
  obtain ⟨counts, -, hcounts⟩ := Option.bind_eq_some_iff.mp (Except.ok.inj hrun)
  obtain ⟨count, -, hcount⟩ := Option.bind_eq_some_iff.mp hcounts
  cases hcount
  refine ⟨?_, (operands_eq hops).1⟩
  simp only [operands, bind_eq_ok] at hops
  obtain ⟨common, hcommon, left, -, right, -, heq⟩ := hops
  obtain rfl := Except.ok.inj heq
  exact hcommon

theorem add_spec {lhs : Duration T} {rhs : Duration U} (h : Comparable lhs rhs)
    (ht : Expressible T U (lhs.time + rhs.time)) :
    Denotes (add lhs rhs) (lhs.time + rhs.time) := by
  refine combine_spec h ht fun x y hx hy => ?_
  rw [hx, hy, Int.cast_add, add_mul]

theorem sub_spec {lhs : Duration T} {rhs : Duration U} (h : Comparable lhs rhs)
    (ht : Expressible T U (lhs.time - rhs.time)) :
    Denotes (sub lhs rhs) (lhs.time - rhs.time) := by
  refine combine_spec h ht fun x y hx hy => ?_
  rw [hx, hy, Int.cast_sub, sub_mul]

/-! ## The order of durations -/

theorem comparable_self (d : Duration T) : Comparable d d := by
  have hself : Expressible T T d.time := by
    refine ⟨d.count, ?_, ?_⟩
    · rw [Rep.common, if_pos rfl]
      exact d.fits
    · rw [commonUnit_self]
      rfl
  exact ⟨compiles_self T, hself, hself⟩

/-- The operators of two durations exist where the common period and the
factors are in range.  On counts that can be scaled they compare times, and
add and subtract them; so the order is a strict total order across all
duration types, and the equality that goes with it is the one of times. -/
theorem duration_order (T U : DurationType) :
    (Compiles T U ↔
      (Int.lcm T.period.den U.period.den : ℤ) ≤ Rational.max ∧
      T.unit / commonUnit T U ≤ Rational.max ∧
      U.unit / commonUnit T U ≤ Rational.max) ∧
    ∀ (d₁ : Duration T) (d₂ : Duration U), Comparable d₁ d₂ →
      (eq d₁ d₂ = .ok (some (decide (d₁.time = d₂.time))) ∧
        ne d₁ d₂ = .ok (some (decide (d₁.time ≠ d₂.time))) ∧
        lt d₁ d₂ = .ok (some (decide (d₁.time < d₂.time))) ∧
        gt d₁ d₂ = .ok (some (decide (d₂.time < d₁.time))) ∧
        le d₁ d₂ = .ok (some (decide (d₁.time ≤ d₂.time))) ∧
        ge d₁ d₂ = .ok (some (decide (d₂.time ≤ d₁.time)))) ∧
      (Expressible T U (d₁.time + d₂.time) →
        Denotes (add d₁ d₂) (d₁.time + d₂.time)) ∧
      (Expressible T U (d₁.time - d₂.time) →
        Denotes (sub d₁ d₂) (d₁.time - d₂.time)) ∧
      lt d₁ d₁ = .ok (some false) ∧
      (lt d₁ d₂ = .ok (some true) ∨ eq d₁ d₂ = .ok (some true) ∨
        lt d₂ d₁ = .ok (some true)) ∧
      (eq d₁ d₂ = .ok (some true) ↔
        lt d₁ d₂ = .ok (some false) ∧ lt d₂ d₁ = .ok (some false)) ∧
      ∀ (V : DurationType) (d₃ : Duration V), Comparable d₂ d₃ →
        Comparable d₁ d₃ → lt d₁ d₂ = .ok (some true) →
        lt d₂ d₃ = .ok (some true) → lt d₁ d₃ = .ok (some true) := by
  refine ⟨compiles_iff, ?_⟩
  intro d₁ d₂ h
  refine ⟨⟨eq_spec h, ne_spec h, lt_spec h, gt_spec h, le_spec h, ge_spec h⟩,
    add_spec h, sub_spec h, ?_, ?_, ?_, ?_⟩
  · simp [lt_spec (comparable_self d₁)]
  · simpa [lt_spec h, eq_spec h, lt_spec h.symm] using
      lt_trichotomy d₁.time d₂.time
  · simpa [lt_spec h, eq_spec h, lt_spec h.symm, and_comm] using
      le_antisymm_iff (a := d₁.time) (b := d₂.time)
  · intro V d₃ h₂₃ h₁₃ h₁ h₂
    simp only [lt_spec h, lt_spec h₂₃, lt_spec h₁₃, Except.ok.injEq,
      Option.some.injEq, decide_eq_true_eq] at h₁ h₂ ⊢
    exact h₁.trans h₂

/-- One minute is not less than 59 seconds counted in milliseconds. -/
theorem duration_order_minute :
    lt (⟨1, by decide⟩ : Duration minutes)
      (⟨59000, by decide⟩ : Duration milliseconds) = .ok (some false) := by
  have hunit : commonUnit minutes milliseconds = 1 / 1000 := by
    have hgcd : Int.gcd 60 1 = 1 := by decide
    have hlcm : Int.lcm 1 1000 = 1000 := by decide
    simp [commonUnit, minutes, milliseconds, hgcd, hlcm]
  have hminute : minutes.unit = 60 := by
    simp [DurationType.unit, Ratio.value, minutes]
  have hmilli : milliseconds.unit = 1 / 1000 := by
    simp [DurationType.unit, Ratio.value, milliseconds]
  have hcompiles := (duration_order minutes milliseconds).1.mpr
    ⟨by decide, by rw [hunit, hminute]; norm_num [max_eq],
      by rw [hunit, hmilli]; norm_num [max_eq]⟩
  have hcomparable : Comparable (⟨1, by decide⟩ : Duration minutes)
      (⟨59000, by decide⟩ : Duration milliseconds) := by
    refine ⟨hcompiles, ⟨60000, by decide, ?_⟩, ⟨59000, by decide, ?_⟩⟩
    · rw [hunit, Duration.time, hminute]
      norm_num
    · rw [hunit, Duration.time, hmilli]
  have h := ((duration_order minutes milliseconds).2 _ _ hcomparable).1.2.2.1
  rw [h, Duration.time, Duration.time, hminute, hmilli]
  norm_num

end Libhipcxx.Chrono
