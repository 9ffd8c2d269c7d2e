import Libhipcxx.Chrono.DurationCast

/-!
# Remainders of durations

A cast to whole periods and the difference from its result split a duration
that is not negative.  The counts on the way do not exceed its count in the
common unit, so that one bound suffices for all of them.
-/

namespace Libhipcxx.Chrono

open Rational Rounding

variable {T U C : DurationType} {t : ℚ}

theorem Rep.Fits.of_le {r : Rep} {i k : ℤ} (h : r.Fits k) (hpos : 0 ≤ i) (hle : i ≤ k) :
    r.Fits i :=
  ⟨r.type.min_nonpos.trans hpos, hle.trans h.2⟩

theorem Rep.Fits.of_abs {r : Rep} {i : ℤ} (h : r.Fits |i|) : r.Fits i := by
  have hmin : r.type.min ≤ -r.type.max := by
    cases r <;> decide
  obtain ⟨hlo, hhi⟩ := abs_le.mp h.2
  exact ⟨hmin.trans hlo, hhi⟩

theorem Rep.Fits.neg {r : Rep} {i : ℤ} (h : r.Fits i) (hpos : 0 ≤ i) : r.Fits (-i) := by
  apply Rep.Fits.of_abs
  rwa [abs_neg, abs_of_nonneg hpos]

theorem Rep.width_common (r : Rep) {s : Rep} (h : 64 ≤ s.width) :
    (r.common s).width = max r.width s.width := by
  revert h
  cases r <;> cases s <;> decide

theorem width_castRep (h : 64 ≤ U.rep.width) :
    (castRep T U).width = max T.rep.width U.rep.width := by
  have hlong : Rep.long.width = 64 := rfl
  rw [castRep, Rep.common_comm U.rep, Rep.width_common _ hlong.ge, Rep.width_common _ h]
  omega

/-! ## Times up to a bound -/

/-- The common type of two types can count the times up to the given one. -/
def Room (T U : DurationType) (t : ℚ) : Prop :=
  ∃ k : ℤ, (T.rep.common U.rep).Fits k ∧ t ≤ k * commonUnit T U

theorem Room.symm (h : Room T U t) : Room U T t := by
  rwa [Room, Rep.common_comm, commonUnit_comm]

theorem Room.expressible {s : ℚ} {i : ℤ} (h : Room T U t)
    (hi : s = i * commonUnit T U) (hpos : 0 ≤ s) (hle : s ≤ t) : Expressible T U s := by
  obtain ⟨k, hk, htk⟩ := h
  have hunit := commonUnit_pos T U
  refine ⟨i, hk.of_le ?_ ?_, hi⟩
  · rw [hi] at hpos
    exact Int.cast_nonneg_iff.mp (nonneg_of_mul_nonneg_left hpos hunit)
  · rw [hi] at hle
    exact Int.cast_le.mp (le_of_mul_le_mul_right (hle.trans htk) hunit)

theorem Duration.exists_commonUnit (d : Duration T) (U : DurationType) :
    ∃ i : ℤ, d.time = i * commonUnit T U := by
  obtain ⟨k, hk⟩ := exists_multiple T U
  refine ⟨d.count * k, ?_⟩
  rw [Duration.time, hk, Int.cast_mul, mul_assoc]

theorem Room.comparable {x : Duration T} {y : Duration U} (h : Room T U t)
    (hcompiles : Compiles T U) (hx : 0 ≤ x.time) (hxt : x.time ≤ t) (hy : 0 ≤ y.time)
    (hyt : y.time ≤ t) : Comparable x y := by
  obtain ⟨i, hi⟩ := x.exists_commonUnit U
  obtain ⟨j, hj⟩ := y.exists_commonUnit T
  exact ⟨hcompiles, h.expressible hi hx hxt, (h.symm.expressible hj hy hyt).symm⟩

theorem add_of_room {x : Duration T} {y : Duration U} (h : Room T U (x.time + y.time))
    (hcompiles : Compiles T U) (hx : 0 ≤ x.time) (hy : 0 ≤ y.time) :
    Denotes (add x y) (x.time + y.time) := by
  obtain ⟨i, hi⟩ := x.exists_commonUnit U
  obtain ⟨j, hj⟩ := y.exists_commonUnit T
  rw [commonUnit_comm] at hj
  have hsum : x.time + y.time = (i + j : ℤ) * commonUnit T U := by
    rw [hi, hj, Int.cast_add, add_mul]
  exact add_spec
    (h.comparable hcompiles hx (le_add_of_nonneg_right hy) hy (le_add_of_nonneg_left hx))
    (h.expressible hsum (add_nonneg hx hy) le_rfl)

theorem sub_of_room {x : Duration T} {y : Duration U} (h : Room T U x.time)
    (hcompiles : Compiles T U) (hy : 0 ≤ y.time) (hle : y.time ≤ x.time) :
    Denotes (sub x y) (x.time - y.time) := by
  obtain ⟨i, hi⟩ := x.exists_commonUnit U
  obtain ⟨j, hj⟩ := y.exists_commonUnit T
  rw [commonUnit_comm] at hj
  have hdiff : x.time - y.time = (i - j : ℤ) * commonUnit T U := by
    rw [hi, hj, Int.cast_sub, sub_mul]
  exact sub_spec (h.comparable hcompiles (hy.trans hle) le_rfl hy hle)
    (h.expressible hdiff (sub_nonneg.mpr hle) (sub_le_self _ hy))

/-! ## Periods of whole seconds -/

theorem commonUnit_whole (hU : U.period.den = 1) :
    commonUnit T U = Int.gcd T.period.num U.period.num / T.period.den := by
  rw [commonUnit, hU, Int.lcm_one_right, Nat.cast_natAbs, abs_of_pos T.period.den_pos]

theorem inv_den_le_commonUnit (hU : U.period.den = 1) :
    1 / (T.period.den : ℚ) ≤ commonUnit T U := by
  have hgcd : (1 : ℚ) ≤ Int.gcd T.period.num U.period.num := by
    exact_mod_cast gcd_num_pos T U
  rw [commonUnit_whole hU]
  exact div_le_div_of_nonneg_right hgcd T.period.cast_den_pos.le

/-- The operators exist where the factor for the second operand is in range. -/
theorem compiles_whole (hU : U.period.den = 1) :
    Compiles T U ↔ U.unit / commonUnit T U ≤ Rational.max := by
  have hlcm : (Int.lcm T.period.den U.period.den : ℤ) ≤ Rational.max := by
    rw [hU, Int.lcm_one_right, Int.natAbs_of_nonneg T.period.den_pos.le]
    exact T.period.den_le
  have hleft : T.unit / commonUnit T U ≤ Rational.max := by
    rw [div_le_iff₀ (commonUnit_pos T U)]
    calc T.unit = T.period.num * (1 / T.period.den) := by
          rw [DurationType.unit, Ratio.value, mul_one_div]
      _ ≤ T.period.num * commonUnit T U :=
          mul_le_mul_of_nonneg_left (inv_den_le_commonUnit hU)
            (Int.cast_nonneg T.period_pos.le)
      _ ≤ Rational.max * commonUnit T U :=
          mul_le_mul_of_nonneg_right (Int.cast_le.mpr (abs_le.mp T.period.num_le).2)
            (commonUnit_pos T U).le
  rw [compiles_iff]
  exact ⟨fun h => h.2.2, fun h => ⟨hlcm, hleft, h⟩⟩

/-- A period has the terms of its unit. -/
theorem DurationType.period_terms {a b : ℤ} (hb : 0 < b) (hcoprime : IsCoprime a b)
    (h : C.unit = a / b) : C.period.num = a ∧ C.period.den = b := by
  have hnat : Nat.Coprime a.natAbs b.natAbs := Int.isCoprime_iff_gcd_eq_one.mp hcoprime
  rw [DurationType.unit] at h
  rw [← Ratio.num_value, ← Ratio.den_value, h]
  exact ⟨Rat.num_div_eq_of_coprime hb hnat, Rat.den_div_eq_of_coprime hb hnat⟩

/-- The common type with whole seconds keeps the denominator. -/
theorem commonType_whole (hU : U.period.den = 1) (hC : commonType T U = .ok C) :
    C.rep = T.rep.common U.rep ∧
      C.period.num = Int.gcd T.period.num U.period.num ∧
      C.period.den = T.period.den := by
  obtain ⟨hrep, hunit⟩ := commonType_spec hC
  refine ⟨hrep, DurationType.period_terms T.period.den_pos ?_ ?_⟩
  · exact T.period.reduced.of_isCoprime_of_dvd_left (Int.gcd_dvd_left _ _)
  · rw [hunit, commonUnit_whole hU, Int.cast_natCast]

/-- A count in the unit of the denominator leaves room. -/
theorem room_of_fits {k : ℤ} (hU : U.period.den = 1) (hpos : 0 ≤ k)
    (hfits : (T.rep.common U.rep).Fits k) (hle : t * T.period.den ≤ k) : Room T U t := by
  have hden := T.period.cast_den_pos
  refine ⟨k, hfits, ?_⟩
  calc t ≤ k * (1 / T.period.den) := by
        rw [mul_one_div]
        exact (le_div_iff₀ hden).mpr hle
    _ ≤ k * commonUnit T U :=
        mul_le_mul_of_nonneg_left (inv_den_le_commonUnit hU) (Int.cast_nonneg hpos)

/-! ## The cast and the remainder -/

/-- The factor of a cast is a ratio whose numerator divides that of the
conversion to the common type. -/
theorem exists_castFactor (h : Compiles T U) :
    ∃ factor : Ratio, factor.value = T.unit / U.unit ∧
      factor.num * commonUnit T U ≤ T.unit := by
  obtain ⟨ops, hops⟩ := h
  obtain ⟨-, -, ⟨-, hleft⟩, ⟨-, hright⟩⟩ := operands_eq hops
  have hunit := commonUnit_pos T U
  have hpos {V : DurationType} {k : ℤ} (h : V.unit = k * commonUnit T U) : 0 < k :=
    Int.cast_pos.mp (pos_of_mul_pos_left (h ▸ V.unit_pos) hunit.le)
  have hleft_pos := hpos hleft
  have hright_pos := hpos hright
  obtain ⟨factor, -, hvalue⟩ :=
    ratio_eq ops.left.num_le ops.right.num_le hright_pos.ne'
  have hle : factor.num ≤ ops.left.num :=
    Ratio.num_le_of_value hleft_pos hright_pos.ne' hvalue
  refine ⟨factor, ?_, ?_⟩
  · rw [hvalue, hleft, hright, mul_div_mul_right _ _ hunit.ne']
  · rw [hleft]
    exact mul_le_mul_of_nonneg_right (Int.cast_le.mpr hle) hunit.le

theorem Duration.count_nonneg_iff {d : Duration T} : 0 ≤ d.count ↔ 0 ≤ d.time := by
  rw [Duration.time, mul_nonneg_iff_of_pos_right T.unit_pos, Int.cast_nonneg_iff]

theorem castFits_of_room {d : Duration T} (hcompiles : Compiles T U)
    (hpos : 0 ≤ d.time) (hroom : Room T U d.time)
    (hfits : U.rep.Fits ⌊d.time / U.unit⌋) : CastFits U d := by
  obtain ⟨factor, hvalue, hfactor⟩ := exists_castFactor hcompiles
  obtain ⟨k, hk, hle⟩ := hroom
  have hcount := Duration.count_nonneg_iff.mpr hpos
  have hnum : 0 < factor.num := by
    rw [factor.num_pos_iff, hvalue]
    exact div_pos T.unit_pos U.unit_pos
  have hproduct : d.count * factor.num ≤ k := by
    have hscaled : ((d.count * factor.num : ℤ) : ℚ) * commonUnit T U ≤ d.time := by
      rw [Int.cast_mul, mul_assoc]
      exact mul_le_mul_of_nonneg_left hfactor (Int.cast_nonneg hcount)
    exact Int.cast_le.mp (le_of_mul_le_mul_right (hscaled.trans hle) (commonUnit_pos T U))
  refine ⟨factor, hvalue, ?_, ?_⟩
  · refine (hk.of_le (mul_nonneg hcount hnum.le) hproduct).of_width_le ?_
    rw [castRep, Rep.common_comm U.rep]
    exact Rep.width_le_common_left _ _
  · rwa [truncate_of_nonneg (div_nonneg hpos U.unit_pos.le)]

/-- A duration is split into whole periods and what is left of it. -/
theorem split_spec {d : Duration T} (hcompiles : Compiles T U) (hpos : 0 ≤ d.time)
    (hroom : Room T U d.time) (hfits : U.rep.Fits ⌊d.time / U.unit⌋) :
    ∃ (whole : Duration U) (C : DurationType) (rest : Duration C),
      castTo U d = .ok (some whole) ∧ sub d whole = .ok (some ⟨C, rest⟩) ∧
      commonType T U = .ok C ∧ 0 ≤ whole.time ∧ whole.count = ⌊d.time / U.unit⌋ ∧
      rest.time = d.time - whole.time ∧ 0 ≤ rest.time ∧ rest.time < U.unit := by
  obtain ⟨whole, hcast, hcount⟩ := castTo_spec (castFits_of_room hcompiles hpos hroom hfits)
  rw [truncate_of_nonneg (div_nonneg hpos U.unit_pos.le)] at hcount
  have hwhole : whole.time = ⌊d.time / U.unit⌋ * U.unit := by
    rw [Duration.time, hcount]
  have hwhole_pos : 0 ≤ whole.time := by
    rw [← Duration.count_nonneg_iff, hcount]
    exact Int.floor_nonneg.mpr (div_nonneg hpos U.unit_pos.le)
  have hrest_pos : 0 ≤ d.time - whole.time :=
    hwhole ▸ Int.sub_floor_div_mul_nonneg d.time U.unit_pos
  obtain ⟨C, rest, hsub, hrest⟩ :=
    sub_of_room hroom hcompiles hwhole_pos (sub_nonneg.mp hrest_pos)
  refine ⟨whole, C, rest, hcast, hsub, (combine_commonType hsub).1, hwhole_pos, hcount,
    hrest, ?_, ?_⟩
  · rwa [hrest]
  · rw [hrest, hwhole]
    exact Int.sub_floor_div_mul_lt d.time U.unit_pos

end Libhipcxx.Chrono
