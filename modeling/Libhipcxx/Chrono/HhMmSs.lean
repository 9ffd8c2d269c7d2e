import Libhipcxx.Chrono.Remainder
import Libhipcxx.Chrono.Rounding

/-!
# hh_mm_ss

The magnitude of a duration is split into hours, minutes, seconds and a
fraction.  The precision of the fraction is a power of ten, found by long
division of one by the denominator of the period; a division that goes on for
more than 18 digits makes it a microsecond.
-/

namespace Libhipcxx.Chrono

open Rational Rounding

variable {T C P : DurationType}

/-! ## The precision -/

/-- `__pow10`, in `uint64_t`. -/
def pow10 : ℕ → ℕ
  | 0 => 1
  | exp + 1 => pow10 exp * 10 % 2 ^ 64

/-- `__width`, in `uint64_t`; `left` is the number of digits that `__w` leaves
to find. -/
def width (n d : ℕ) : ℕ → ℕ
  | 0 => 0
  | left + 1 => if 2 ≤ n ∧ d ≠ 0 then 1 + width n (d % n * 10 % 2 ^ 64) left else 0

def fractionalWidth (den : ℤ) : ℕ :=
  if width den.toNat 10 19 < 19 then width den.toNat 10 19 else 6

/-- The member type `precision`. -/
def precision (T : DurationType) : Except Failure DurationType := do
  let common ← commonType T seconds
  durationType common.rep 1 (pow10 (fractionalWidth common.period.den))

/-! ## The fields -/

/-- `abs`. -/
def abs (d : Duration T) : Except Failure (Option (Duration T)) :=
  andThen (ge d (Duration.ofNumber T 0)) fun nonneg =>
    assignTo T (if nonneg then plus d else minus d)

structure HhMmSs (P : DurationType) where
  isNeg : Bool
  h : Duration hours
  m : Duration minutes
  s : Duration seconds
  f : Duration P
  deriving DecidableEq

/-- The constructor.  Every field is cast from what the fields before it leave
of the magnitude. -/
def HhMmSs.ofDuration (P : DurationType) (d : Duration T) :
    Except Failure (Option (HhMmSs P)) :=
  andThen (lt d (Duration.ofNumber T 0)) fun isNeg =>
    andThen (abs d) fun magnitude =>
      andThen (castTo hours magnitude) fun h =>
        andThen (sub magnitude h) fun ⟨_, afterHours⟩ =>
          andThen (castTo minutes afterHours) fun m =>
            andThen (sub afterHours m) fun ⟨_, afterMinutes⟩ =>
              andThen (castTo seconds afterMinutes) fun s =>
                andThen (sub afterMinutes s) fun ⟨_, afterSeconds⟩ =>
                  andThen (castTo P afterSeconds) fun f =>
                    .ok (some ⟨isNeg, h, m, s, f⟩)

/-- `to_duration`. -/
def HhMmSs.toDuration (x : HhMmSs P) : Except Failure (Option (Duration P)) :=
  andThen (add x.h x.m) fun ⟨_, minutesSum⟩ =>
    andThen (add minutesSum x.s) fun ⟨_, secondsSum⟩ =>
      andThen (add secondsSum x.f) fun ⟨D, dur⟩ =>
        assignTo P (if x.isNeg then minus dur else .ok (some ⟨D, dur⟩))

/-! ## Digits -/

theorem pow10_eq {exp : ℕ} (h : exp ≤ 18) : pow10 exp = 10 ^ exp := by
  induction exp with
  | zero => rfl
  | succ exp ih =>
      have hle : 10 ^ (exp + 1) ≤ 10 ^ 18 := Nat.pow_le_pow_right (by decide) h
      have hmax : 10 ^ 18 < 2 ^ 64 := by decide
      rw [pow10, ih (Nat.le_of_succ_le h), ← Nat.pow_succ]
      exact Nat.mod_eq_of_lt (Nat.lt_of_le_of_lt hle hmax)

/-- The digit after the ones that are found.  A product does not wrap around
before the last digit, however great the divisor is: a power of ten up to the
18th leaves no more than itself. -/
theorem next_digit (n : ℕ) {e : ℕ} (h : e < 18) :
    10 ^ e % n * 10 % n * 10 % 2 ^ 64 = 10 ^ (e + 1) % n * 10 := by
  have hpow : 10 ^ (e + 1) ≤ 10 ^ 18 := Nat.pow_le_pow_right (by decide) h
  have hlt : 10 ^ (e + 1) % n * 10 < 2 ^ 64 :=
    calc 10 ^ (e + 1) % n * 10 ≤ 10 ^ 18 * 10 :=
          Nat.mul_le_mul_right 10 ((Nat.mod_le _ n).trans hpow)
      _ < 2 ^ 64 := by decide
  rw [Nat.mod_mul_mod, ← Nat.pow_succ, Nat.mod_eq_of_lt hlt]

theorem width_of_dvd {n e : ℕ} (h : n ∣ 10 ^ e) (left : ℕ) :
    width n (10 ^ e % n * 10) left = 0 := by
  cases left with
  | zero => rfl
  | succ left =>
    rw [Nat.mod_eq_zero_of_dvd h, width]
    exact if_neg fun hand => hand.2 rfl

theorem width_of_not_dvd {n e left : ℕ} (hn : 2 ≤ n) (hlast : e + left ≤ 18)
    (h : ¬ n ∣ 10 ^ e) :
    width n (10 ^ e % n * 10) (left + 1) = 1 + width n (10 ^ (e + 1) % n * 10) left := by
  have hdigit : 10 ^ e % n * 10 ≠ 0 :=
    Nat.mul_ne_zero (mt Nat.dvd_of_mod_eq_zero h) (by decide)
  rw [width, if_pos ⟨hn, hdigit⟩]
  cases left with
  | zero => rfl
  | succ left => rw [next_digit n (by omega)]

/-- The recursion ends at the first power of ten that the divisor divides, or
with the last digit. -/
theorem width_spec {n : ℕ} (hn : 2 ≤ n) :
    ∀ {left e : ℕ}, e + left ≤ 19 →
      width n (10 ^ e % n * 10) left ≤ left ∧
        (∀ k < width n (10 ^ e % n * 10) left, ¬ n ∣ 10 ^ (e + k)) ∧
        (width n (10 ^ e % n * 10) left < left →
          n ∣ 10 ^ (e + width n (10 ^ e % n * 10) left)) := by
  intro left
  induction left with
  | zero =>
    intro e _
    exact ⟨Nat.le_refl 0, fun k hk => absurd hk (Nat.not_lt_zero k),
      fun hlt => absurd hlt (Nat.not_lt_zero _)⟩
  | succ left ih =>
    intro e hle
    by_cases hend : n ∣ 10 ^ e
    · rw [width_of_dvd hend]
      exact ⟨Nat.zero_le _, fun k hk => absurd hk (Nat.not_lt_zero k), fun _ => hend⟩
    · obtain ⟨hbound, hnone, hdvd⟩ := @ih (e + 1) (by omega)
      rw [width_of_not_dvd hn (by omega) hend]
      refine ⟨by omega, ?_, ?_⟩
      · intro k hk
        cases k with
        | zero => exact hend
        | succ k =>
          rw [← Nat.add_assoc, Nat.add_right_comm]
          exact hnone k (by omega)
      · intro hlt
        rw [← Nat.add_assoc]
        exact hdvd (by omega)

/-- The first digit is one, and the digits end with the 19th. -/
theorem width_eq {n : ℕ} (hpos : 0 < n) :
    width n 10 19 ≤ 19 ∧ (∀ k < width n 10 19, ¬ n ∣ 10 ^ k) ∧
      (width n 10 19 < 19 → n ∣ 10 ^ width n 10 19) := by
  rcases Nat.lt_or_ge n 2 with hone | hn
  · obtain rfl : n = 1 := by omega
    have hzero : width 1 10 19 = 0 := if_neg fun hand => absurd hand.1 (by decide)
    rw [hzero]
    exact ⟨Nat.zero_le _, fun k hk => absurd hk (Nat.not_lt_zero k), fun _ => Nat.one_dvd _⟩
  · have hstart : 10 ^ 0 % n * 10 = 10 := by
      rw [Nat.pow_zero, Nat.mod_eq_of_lt hn]
    have hspec := @width_spec n hn 19 0 le_rfl
    rw [hstart] at hspec
    simpa only [Nat.zero_add] using hspec

theorem fractionalWidth_le (den : ℤ) : fractionalWidth den ≤ 18 := by
  rw [fractionalWidth]
  split <;> omega

theorem fractionalWidth_natCast (n : ℕ) :
    fractionalWidth n = if width n 10 19 < 19 then width n 10 19 else 6 := by
  rw [fractionalWidth, Int.toNat_natCast]

theorem width_le_of_dvd {n k : ℕ} (hpos : 0 < n) (hdvd : n ∣ 10 ^ k) :
    width n 10 19 ≤ k := by
  by_contra hlt
  exact (width_eq hpos).2.1 k (not_le.mp hlt) hdvd

/-- For every denominator, the width is the least number of digits that end the
fraction, if 18 are enough, and 19 otherwise.  No power of ten up to the chosen
one wraps around. -/
theorem fractional_width {n : ℕ} (hpos : 1 ≤ n) :
    ((∃ k ≤ 18, n ∣ 10 ^ k) →
      IsLeast {k | n ∣ 10 ^ k} (width n 10 19) ∧ width n 10 19 ≤ 18 ∧
        fractionalWidth n = width n 10 19) ∧
    ((¬ ∃ k ≤ 18, n ∣ 10 ^ k) → 19 ≤ width n 10 19 ∧ fractionalWidth n = 6) ∧
    ∀ k ≤ fractionalWidth n, pow10 k = 10 ^ k ∧ 10 ^ k < 2 ^ 64 := by
  obtain ⟨-, hnone, hdvd⟩ := width_eq hpos
  rw [fractionalWidth_natCast]
  refine ⟨?_, ?_, ?_⟩
  · rintro ⟨k, hk, hend⟩
    have hle : width n 10 19 ≤ 18 := (width_le_of_dvd hpos hend).trans hk
    have hlt : width n 10 19 < 19 := Nat.lt_succ_of_le hle
    refine ⟨⟨hdvd hlt, ?_⟩, hle, if_pos hlt⟩
    intro k' hk'
    exact width_le_of_dvd hpos hk'
  · intro hnever
    have hge : 19 ≤ width n 10 19 := by
      by_contra hlt
      exact hnever ⟨_, Nat.le_of_lt_succ (not_le.mp hlt), hdvd (not_le.mp hlt)⟩
    exact ⟨hge, if_neg (not_lt.mpr hge)⟩
  · rw [← fractionalWidth_natCast]
    intro k hk
    have hle := hk.trans (fractionalWidth_le n)
    refine ⟨pow10_eq hle, ?_⟩
    calc 10 ^ k ≤ 10 ^ 18 := Nat.pow_le_pow_right (by decide) hle
      _ < 2 ^ 64 := by decide

/-- Sevenths of a second have no end, and are given in microseconds. -/
theorem fractional_width_sevenths : fractionalWidth (7 : ℕ) = 6 := by
  apply ((fractional_width (by decide : 1 ≤ 7)).2.1 ?_).2
  rintro ⟨k, -, hdvd⟩
  exact absurd (Nat.Prime.dvd_of_dvd_pow (by decide) hdvd) (by decide)

/-- A denominator that divides some power of ten divides the one that is
chosen. -/
theorem dvd_fractionalWidth {den : ℤ} {k : ℕ} (hpos : 0 < den) (hk : k ≤ 18)
    (hdvd : den ∣ 10 ^ k) : den ∣ 10 ^ fractionalWidth den := by
  obtain ⟨n, rfl⟩ := Int.eq_ofNat_of_zero_le hpos.le
  have hpos : 0 < n := by exact_mod_cast hpos
  have hdvd : n ∣ 10 ^ k := by exact_mod_cast hdvd
  suffices h : n ∣ 10 ^ fractionalWidth n by exact_mod_cast h
  have hlt : width n 10 19 < 19 := Nat.lt_succ_of_le ((width_le_of_dvd hpos hdvd).trans hk)
  rw [fractionalWidth_natCast, if_pos hlt]
  exact (width_eq hpos).2.2 hlt

structure IsPrecision (T P : DurationType) : Prop where
  rep : P.rep = T.rep.common .longLong
  num : P.period.num = 1
  den : P.period.den = 10 ^ fractionalWidth T.period.den

theorem precision_spec (T : DurationType) :
    ∃ P, precision T = .ok P ∧ IsPrecision T P := by
  have hlcm : (Int.lcm T.period.den seconds.period.den : ℤ) ≤ Rational.max := by
    change (Int.lcm T.period.den 1 : ℤ) ≤ _
    rw [Int.lcm_one_right, Int.natAbs_of_nonneg T.period.den_pos.le]
    exact T.period.den_le
  obtain ⟨C, hC, -, -⟩ := commonType_eq hlcm
  obtain ⟨hrep, -, hden⟩ := commonType_whole rfl hC
  have hwidth := fractionalWidth_le T.period.den
  have hmax : (10 ^ fractionalWidth T.period.den : ℤ) ≤ Rational.max :=
    (pow_le_pow_right₀ (by decide) hwidth).trans (by decide)
  have hpow : ((pow10 (fractionalWidth T.period.den) : ℕ) : ℤ) =
      10 ^ fractionalWidth T.period.den := by
    rw [pow10_eq hwidth, Nat.cast_pow, Nat.cast_ofNat]
  obtain ⟨P, hP, hPrep, hPunit⟩ := durationType_eq C.rep (by decide : (0 : ℤ) < 1)
    (pow_pos (by decide : (0 : ℤ) < 10) (fractionalWidth T.period.den)) (by decide) hmax
  obtain ⟨hPnum, hPden⟩ :=
    DurationType.period_terms (pow_pos (by decide) _) isCoprime_one_left hPunit
  refine ⟨P, ?_, hPrep.trans hrep, hPnum, hPden⟩
  rw [precision, hC, ok_bind, hden, hpow, hP]

/-! ## The magnitude -/

theorem time_zero (T : DurationType) : (Duration.ofNumber T 0).time = 0 := by
  have hcount : (Duration.ofNumber T 0).count = 0 :=
    IntegerType.convert_of_fits T.rep.type.fits_zero
  rw [Duration.time, hcount, Int.cast_zero, zero_mul]

theorem lt_zero_spec (d : Duration T) :
    lt d (Duration.ofNumber T 0) = .ok (some (decide (d.time < 0))) := by
  rw [lt_spec (comparable_same _ _), time_zero]

theorem abs_spec {d : Duration T} (h : T.rep.Fits |d.count|) :
    abs d = .ok (some ⟨|d.count|, h⟩) := by
  rw [abs, ge_spec (comparable_same _ _), time_zero, andThen_some]
  rcases le_or_gt 0 d.time with hpos | hneg
  · obtain ⟨C, x, hx, hunit, hcount⟩ := plus_spec d
    have habs : x.count = |d.count| := by
      rw [hcount, abs_of_nonneg (Duration.count_nonneg_iff.mpr hpos)]
    rw [decide_eq_true hpos, if_pos rfl, hx, assignTo_eq hunit (habs.symm ▸ h)]
    exact congrArg (Except.ok ∘ some) (Duration.ext habs)
  · have hcount : d.count ≤ 0 :=
      (not_le.mp (mt Duration.count_nonneg_iff.mp (not_le.mpr hneg))).le
    rw [abs_of_nonpos hcount] at h
    obtain ⟨C, x, hx, hunit, habs⟩ := minus_spec h
    rw [decide_eq_false (not_le.mpr hneg), if_neg (by decide), hx,
      assignTo_eq hunit (habs.symm ▸ h)]
    exact congrArg (Except.ok ∘ some) (Duration.ext (habs.trans (abs_of_nonpos hcount).symm))

/-! ## The types of the remainders -/

theorem seconds_unit : seconds.unit = 1 := by decide +kernel

theorem minutes_unit : minutes.unit = 60 := by decide +kernel

theorem hours_unit : hours.unit = 3600 := by decide +kernel

/-- Seconds combine with every type. -/
theorem compiles_seconds (T : DurationType) : Compiles T seconds := by
  have hden := T.period.cast_den_pos
  have hle := inv_den_le_commonUnit (T := T) (U := seconds) rfl
  rw [compiles_whole rfl, seconds_unit]
  calc 1 / commonUnit T seconds ≤ 1 / (1 / (T.period.den : ℚ)) :=
        one_div_le_one_div_of_le (one_div_pos.mpr hden) hle
    _ = T.period.den := one_div_one_div _
    _ ≤ Rational.max := Int.cast_le.mpr T.period.den_le

/-- Where hours combine with a type, minutes combine with what they leave. -/
theorem compiles_minutes (h : Compiles T hours) (hC : commonType T hours = .ok C) :
    Compiles C minutes := by
  obtain ⟨-, hnum, hden⟩ := commonType_whole rfl hC
  rw [compiles_whole rfl, hours_unit] at h
  rw [compiles_whole rfl, minutes_unit]
  refine le_trans ?_ h
  rw [div_le_div_iff₀ (commonUnit_pos _ _) (commonUnit_pos _ _), commonUnit_whole rfl,
    commonUnit_whole rfl, hnum, hden, mul_div_assoc', mul_div_assoc']
  refine div_le_div_of_nonneg_right ?_ T.period.cast_den_pos.le
  -- The least common multiple with sixty divides an hour.
  generalize hg : Int.gcd T.period.num hours.period.num = g
  have hdvd : g ∣ 3600 := by
    rw [← hg, ← Int.natCast_dvd_natCast]
    exact Int.gcd_dvd_right T.period.num hours.period.num
  have hlcm : Nat.lcm g 60 ≤ 3600 :=
    Nat.le_of_dvd (by decide) (Nat.lcm_dvd hdvd (by decide))
  have hle : 60 * g ≤ 3600 * Nat.gcd g 60 :=
    calc 60 * g = Nat.gcd g 60 * Nat.lcm g 60 := by rw [Nat.gcd_mul_lcm, Nat.mul_comm]
      _ ≤ Nat.gcd g 60 * 3600 := Nat.mul_le_mul_left _ hlcm
      _ = 3600 * Nat.gcd g 60 := Nat.mul_comm _ _
  exact_mod_cast hle

/-- What earlier fields leave of a duration: not more than `k` in the unit of
the denominator. -/
structure Rest (T : DurationType) (k : ℤ) (d : Duration C) : Prop where
  den : C.period.den = T.period.den
  width : T.rep.width ≤ C.rep.width
  nonneg : 0 ≤ d.time
  bounded : d.time * T.period.den ≤ k

theorem Rest.split {U : DurationType} {k : ℤ} {d : Duration C} (h : Rest T k d)
    (hk : (T.rep.common .longLong).Fits k) (hU : U.period.den = 1)
    (hwidth : U.rep.width = 64) (hcompiles : Compiles C U)
    (hfits : U.rep.Fits ⌊d.time / U.unit⌋) :
    ∃ (whole : Duration U) (D : DurationType) (rest : Duration D),
      castTo U d = .ok (some whole) ∧ sub d whole = .ok (some ⟨D, rest⟩) ∧
      commonType C U = .ok D ∧ 0 ≤ whole.time ∧ whole.count = ⌊d.time / U.unit⌋ ∧
      rest.time = d.time - whole.time ∧ rest.time < U.unit ∧ Rest T k rest := by
  have hroom : Room C U d.time := by
    refine room_of_fits hU ?_ (hk.of_width_le ?_) (h.den ▸ h.bounded)
    · exact Int.cast_nonneg_iff.mp ((mul_nonneg h.nonneg
        T.period.cast_den_pos.le).trans h.bounded)
    · rw [Rep.width_common _ (s := .longLong) (by decide),
        Rep.width_common _ hwidth.ge, hwidth]
      exact max_le_max_right 64 h.width
  obtain ⟨whole, D, rest, hcast, hsub, hD, hwhole, hcount, htime, hpos, hlt⟩ :=
    split_spec hcompiles h.nonneg hroom hfits
  obtain ⟨hrep, -, hden⟩ := commonType_whole hU hD
  refine ⟨whole, D, rest, hcast, hsub, hD, hwhole, hcount, htime, hlt,
    hden.trans h.den, ?_, hpos, ?_⟩
  · rw [hrep]
    exact h.width.trans (Rep.width_le_common_left _ _)
  · refine le_trans ?_ h.bounded
    rw [htime]
    exact mul_le_mul_of_nonneg_right (sub_le_self _ hwhole)
      T.period.cast_den_pos.le

/-! ## The subseconds -/

theorem unit_of_num_one (h : C.period.num = 1) : C.unit = 1 / C.period.den := by
  rw [DurationType.unit, Ratio.value, h, Int.cast_one]

/-- The factor for the subseconds divides that for the whole duration. -/
theorem exists_subFactor {factor : Ratio} (hC : C.period.num = 1)
    (hden : C.period.den = T.period.den) (hP : P.period.num = 1)
    (hfactor : factor.value = T.unit / P.unit) :
    ∃ subFactor : Ratio, subFactor.value = C.unit / P.unit ∧ 0 < subFactor.num ∧
      T.period.num * subFactor.num ≤ factor.num := by
  have hT := T.period.cast_den_ne
  have hcross : factor.num * T.period.den =
      T.period.num * (P.period.den * factor.den) := by
    rw [unit_of_num_one hP, one_div, div_inv_eq_mul, DurationType.unit, Ratio.value,
      Ratio.value, div_mul_eq_mul_div, div_eq_div_iff factor.cast_den_ne hT] at hfactor
    have hcross : (factor.num * T.period.den : ℚ) =
        T.period.num * (P.period.den * factor.den) := by
      rw [hfactor, mul_assoc]
    exact_mod_cast hcross
  obtain ⟨m, hm⟩ := T.period.reduced.dvd_of_dvd_mul_right (Dvd.intro _ hcross.symm)
  have hquotient : m * T.period.den = P.period.den * factor.den := by
    rw [hm, mul_assoc] at hcross
    exact mul_left_cancel₀ T.period_pos.ne' hcross
  have hm_pos : 0 < m :=
    pos_of_mul_pos_left (hquotient ▸ mul_pos P.period.den_pos factor.den_pos)
      T.period.den_pos.le
  obtain ⟨subFactor, -, hvalue⟩ :=
    ratio_eq P.period.abs_den_le T.period.abs_den_le T.period.den_pos.ne'
  have hsame : subFactor.value = ((m : ℤ) : ℚ) / factor.den := by
    rw [hvalue, div_eq_div_iff hT factor.cast_den_ne]
    exact_mod_cast hquotient.symm
  have hle : subFactor.num ≤ m :=
    Ratio.num_le_of_value hm_pos factor.den_pos.ne' hsame
  refine ⟨subFactor, ?_, ?_, ?_⟩
  · rw [hvalue, unit_of_num_one hP, unit_of_num_one hC, hden, one_div (P.period.den : ℚ),
      div_inv_eq_mul, one_div_mul_eq_div]
  · rw [subFactor.num_pos_iff, hvalue]
    exact div_pos P.period.cast_den_pos T.period.cast_den_pos
  · rw [hm]
    exact mul_le_mul_of_nonneg_left hle T.period_pos.le

theorem IsPrecision.width_ge (h : IsPrecision T P) : 64 ≤ P.rep.width := by
  rw [h.rep, Rep.width_common _ (s := .longLong) (by decide)]
  exact Nat.le_max_right _ _

/-- What is left after the seconds can be cast where the duration can. -/
theorem Rest.castFits {a : Duration T} {d : Duration C}
    (h : Rest T (a.count * T.period.num) d) (hC : C.period.num = 1)
    (hP : IsPrecision T P) (ha : 0 ≤ a.time) (hfits : CastFits P a) : CastFits P d := by
  obtain ⟨factor, hvalue, hproduct, hquotient⟩ := hfits
  obtain ⟨subFactor, hsub, hsub_pos, hsub_le⟩ :=
    exists_subFactor hC h.den hP.num hvalue
  have hden := T.period.cast_den_pos
  have hcount : d.count ≤ a.count * T.period.num := by
    have hbound := h.bounded
    rw [Duration.time, unit_of_num_one hC, h.den, mul_one_div,
      div_mul_cancel₀ _ hden.ne'] at hbound
    exact Int.cast_le.mp hbound
  have hle : d.time ≤ a.time := by
    have htime : a.time * T.period.den = (a.count * T.period.num : ℤ) := by
      rw [Duration.time, DurationType.unit, Ratio.value, mul_assoc,
        div_mul_cancel₀ _ hden.ne', Int.cast_mul]
    exact le_of_mul_le_mul_right (h.bounded.trans_eq htime.symm) hden
  have hd := Duration.count_nonneg_iff.mpr h.nonneg
  refine ⟨subFactor, hsub, ?_, ?_⟩
  · have hbound : d.count * subFactor.num ≤ a.count * factor.num :=
      calc d.count * subFactor.num ≤ a.count * T.period.num * subFactor.num :=
            mul_le_mul_of_nonneg_right hcount hsub_pos.le
        _ = a.count * (T.period.num * subFactor.num) := mul_assoc _ _ _
        _ ≤ a.count * factor.num :=
            mul_le_mul_of_nonneg_left hsub_le (Duration.count_nonneg_iff.mpr ha)
    refine (hproduct.of_le (mul_nonneg hd hsub_pos.le) hbound).of_width_le ?_
    rw [width_castRep hP.width_ge, width_castRep hP.width_ge]
    exact max_le_max_right _ h.width
  · have hunit := P.unit_pos.le
    rw [truncate_of_nonneg (div_nonneg ha hunit)] at hquotient
    rw [truncate_of_nonneg (div_nonneg h.nonneg hunit)]
    exact hquotient.of_le (Int.floor_nonneg.mpr (div_nonneg h.nonneg hunit))
      (Int.floor_le_floor (div_le_div_of_nonneg_right hle hunit))

/-! ## The constructor -/

/-- Hours combine with the type, without which the class does not compile, and
the magnitude of the duration and the forms that it is scaled to are in range:
in the unit of the denominator, in whole seconds, and in the precision. -/
structure ScaledFits (P : DurationType) (d : Duration T) : Prop where
  compiles : Compiles T hours
  magnitude : T.rep.Fits |d.count|
  common : (T.rep.common .longLong).Fits (|d.count| * T.period.num)
  whole : seconds.rep.Fits ⌊|d.time|⌋
  precision : CastFits P (⟨|d.count|, magnitude⟩ : Duration T)

/-- The fields of a time that is not negative. -/
structure IsSplit (t : ℚ) (x : HhMmSs P) : Prop where
  hours : 0 ≤ x.h.count
  minutes : 0 ≤ x.m.count ∧ x.m.count ≤ 59
  seconds : 0 ≤ x.s.count ∧ x.s.count ≤ 59
  subseconds : 0 ≤ x.f.time ∧ x.f.time < 1
  whole : x.h.time + x.m.time + x.s.time = ⌊t⌋
  fraction : x.f.count = ⌊(t - ⌊t⌋) / P.unit⌋

theorem floor_le_of_lt {s u : ℚ} {n : ℤ} (hu : 0 < u) (h : s < (n + 1) * u) :
    ⌊s / u⌋ ≤ n := by
  rw [← Int.lt_add_one_iff, Int.floor_lt, div_lt_iff₀ hu]
  exact_mod_cast h

/-- Fields that are cast from remainders split the time. -/
theorem isSplit_of_rests {x : HhMmSs P} {t r₁ r₂ r₃ : ℚ}
    (hh : 0 ≤ x.h.time) (hm : 0 ≤ x.m.time) (hs : 0 ≤ x.s.time)
    (hm_count : x.m.count = ⌊r₁ / minutes.unit⌋)
    (hs_count : x.s.count = ⌊r₂ / seconds.unit⌋) (hf_count : x.f.count = ⌊r₃ / P.unit⌋)
    (hr₁ : r₁ = t - x.h.time) (hr₁_lt : r₁ < hours.unit)
    (hr₂ : r₂ = r₁ - x.m.time) (hr₂_lt : r₂ < minutes.unit)
    (hr₃ : r₃ = r₂ - x.s.time) (hr₃_lt : r₃ < seconds.unit) (hr₃_pos : 0 ≤ r₃) :
    IsSplit t x := by
  rw [hours_unit] at hr₁_lt
  rw [minutes_unit] at hr₂_lt
  rw [seconds_unit] at hr₃_lt
  have hsum : x.h.time + x.m.time + x.s.time =
      (x.h.count * 3600 + x.m.count * 60 + x.s.count : ℤ) := by
    rw [Duration.time, Duration.time, Duration.time, hours_unit, minutes_unit, seconds_unit]
    push_cast
    ring
  have hrest : t - (x.h.time + x.m.time + x.s.time) = r₃ := by
    rw [hr₃, hr₂, hr₁]
    ring
  have hwhole : x.h.time + x.m.time + x.s.time = ⌊t⌋ := by
    have hfloor : ⌊t⌋ = x.h.count * 3600 + x.m.count * 60 + x.s.count := by
      rw [Int.floor_eq_iff, ← hsum]
      constructor
      · linarith only [hrest, hr₃_pos]
      · linarith only [hrest, hr₃_lt]
    rw [hsum, hfloor]
  have hf_le : x.f.time ≤ r₃ := by
    rw [Duration.time, hf_count]
    exact (le_div_iff₀ P.unit_pos).mp (Int.floor_le _)
  refine ⟨Duration.count_nonneg_iff.mpr hh, ⟨Duration.count_nonneg_iff.mpr hm, ?_⟩,
    ⟨Duration.count_nonneg_iff.mpr hs, ?_⟩, ⟨?_, hf_le.trans_lt hr₃_lt⟩, hwhole, ?_⟩
  · rw [hm_count]
    refine floor_le_of_lt minutes.unit_pos (hr₁_lt.trans_eq ?_)
    rw [minutes_unit]
    norm_num
  · rw [hs_count]
    refine floor_le_of_lt seconds.unit_pos (hr₂_lt.trans_eq ?_)
    rw [seconds_unit]
    norm_num
  · rw [← Duration.count_nonneg_iff, hf_count]
    exact Int.floor_nonneg.mpr (div_nonneg hr₃_pos P.unit_pos.le)
  · rw [hf_count, ← hwhole, hrest]

theorem time_magnitude {d : Duration T} (h : T.rep.Fits |d.count|) :
    (⟨|d.count|, h⟩ : Duration T).time = |d.time| := by
  rw [Duration.time, Duration.time, abs_mul, abs_of_pos T.unit_pos, Int.cast_abs]

theorem ofDuration_spec {d : Duration T} (hP : IsPrecision T P) (h : ScaledFits P d) :
    ∃ x : HhMmSs P, HhMmSs.ofDuration P d = .ok (some x) ∧
      x.isNeg = decide (d.time < 0) ∧ IsSplit |d.time| x := by
  obtain ⟨a, ha⟩ : ∃ a : Duration T, a = ⟨|d.count|, h.magnitude⟩ := ⟨_, rfl⟩
  have hcount : a.count = |d.count| := congrArg Duration.count ha
  have htime : a.time = |d.time| := ha ▸ time_magnitude h.magnitude
  have hpos : 0 ≤ a.time := htime ▸ abs_nonneg _
  have hk : (T.rep.common .longLong).Fits (a.count * T.period.num) := hcount ▸ h.common
  have hwhole : seconds.rep.Fits ⌊a.time⌋ := htime ▸ h.whole
  have hrest : Rest T (a.count * T.period.num) a := by
    refine ⟨rfl, le_rfl, hpos, ?_⟩
    rw [Duration.time, DurationType.unit, Ratio.value, mul_assoc,
      div_mul_cancel₀ _ T.period.cast_den_ne, Int.cast_mul]
  have hquotient {r : Rep} {s u : ℚ} (hr : 64 ≤ r.width) (hs : 0 ≤ s) (hle : s ≤ a.time)
      (hu : 1 ≤ u) : r.Fits ⌊s / u⌋ := by
    have hnonneg : 0 ≤ s / u := div_nonneg hs (zero_le_one.trans hu)
    refine (hwhole.of_le (Int.floor_nonneg.mpr hnonneg) ?_).of_width_le hr
    exact Int.floor_le_floor ((div_le_self hs hu).trans hle)
  obtain ⟨x, C₁, r₁, hcast₁, hsub₁, hC₁, hx, hx_count, hr₁, hr₁_lt, hrest₁⟩ :=
    hrest.split hk (U := hours) rfl rfl h.compiles
      (hquotient (by decide) hpos le_rfl (by rw [hours_unit]; norm_num))
  have hr₁_le : r₁.time ≤ a.time := hr₁ ▸ sub_le_self _ hx
  obtain ⟨y, C₂, r₂, hcast₂, hsub₂, hC₂, hy, hy_count, hr₂, hr₂_lt, hrest₂⟩ :=
    hrest₁.split hk (U := minutes) rfl rfl (compiles_minutes h.compiles hC₁)
      (hquotient (by decide) hrest₁.nonneg hr₁_le (by rw [minutes_unit]; norm_num))
  have hr₂_le : r₂.time ≤ a.time := (hr₂ ▸ sub_le_self _ hy).trans hr₁_le
  obtain ⟨z, C₃, r₃, hcast₃, hsub₃, hC₃, hz, hz_count, hr₃, hr₃_lt, hrest₃⟩ :=
    hrest₂.split hk (U := seconds) rfl rfl (compiles_seconds C₂)
      (hquotient (by decide) hrest₂.nonneg hr₂_le (by rw [seconds_unit]))
  have hC₃_num : C₃.period.num = 1 := by
    rw [(commonType_whole rfl hC₃).2.1]
    exact congrArg Nat.cast (Int.gcd_one_right _)
  obtain ⟨f, hcast, hf_count⟩ :=
    castTo_spec (hrest₃.castFits hC₃_num hP hpos (ha ▸ h.precision))
  refine ⟨⟨decide (d.time < 0), x, y, z, f⟩, ?_, rfl, ?_⟩
  · rw [HhMmSs.ofDuration, lt_zero_spec, andThen_some, abs_spec h.magnitude, andThen_some,
      ← ha, hcast₁, andThen_some, hsub₁, andThen_some]
    change andThen (castTo minutes r₁) _ = _
    rw [hcast₂, andThen_some, hsub₂, andThen_some]
    change andThen (castTo seconds r₂) _ = _
    rw [hcast₃, andThen_some, hsub₃, andThen_some]
    change andThen (castTo P r₃) _ = _
    rw [hcast, andThen_some]
  · rw [truncate_of_nonneg (div_nonneg hrest₃.nonneg P.unit_pos.le)] at hf_count
    exact isSplit_of_rests hx hy hz hy_count hz_count hf_count (htime ▸ hr₁) hr₁_lt hr₂
      hr₂_lt hr₃ hr₃_lt hrest₃.nonneg

/-! ## The sum of the fields -/

theorem commonType_hours_minutes : commonType hours minutes = .ok minutes := by
  decide +kernel

theorem commonType_minutes_seconds : commonType minutes seconds = .ok seconds := by
  decide +kernel

theorem compiles_hours_minutes : Compiles hours minutes := by
  rw [compiles_whole rfl]
  decide +kernel

theorem commonUnit_precision (hP : IsPrecision T P) : commonUnit P seconds = P.unit := by
  rw [commonUnit_whole rfl, hP.num, unit_of_num_one hP.num]
  norm_num

/-- The time of the fields is that of the duration in the precision, rounded
down. -/
theorem IsSplit.sum_eq {t : ℚ} {x : HhMmSs P} (h : IsSplit t x) (hP : IsPrecision T P) :
    ⌊t⌋ + x.f.time = ⌊t / P.unit⌋ * P.unit := by
  have hshift : (t - ⌊t⌋) / P.unit = t / P.unit - (⌊t⌋ * P.period.den : ℤ) := by
    rw [unit_of_num_one hP.num, one_div, div_inv_eq_mul, div_inv_eq_mul, Int.cast_mul,
      sub_mul]
  have hf : x.f.time = ⌊t / P.unit⌋ * P.unit - ⌊t⌋ := by
    rw [Duration.time, h.fraction, hshift, Int.floor_sub_intCast, Int.cast_sub, sub_mul,
      Int.cast_mul, mul_assoc, unit_of_num_one hP.num,
      mul_one_div_cancel P.period.cast_den_ne, mul_one]
  rw [hf]
  exact add_sub_cancel _ _

theorem whole_fields_sum {t : ℚ} {x : HhMmSs P} (h : IsSplit t x) (hpos : 0 ≤ t)
    (hwhole : seconds.rep.Fits ⌊t⌋) :
    ∃ (minutesSum : Duration minutes) (secondsSum : Duration seconds),
      add x.h x.m = .ok (some ⟨minutes, minutesSum⟩) ∧
      add minutesSum x.s = .ok (some ⟨seconds, secondsSum⟩) ∧ secondsSum.time = ⌊t⌋ := by
  have hh := Duration.count_nonneg_iff.mp h.hours
  have hm := Duration.count_nonneg_iff.mp h.minutes.1
  have hs := Duration.count_nonneg_iff.mp h.seconds.1
  obtain ⟨C, minutesSum, hadd, htime⟩ : Denotes (add x.h x.m) (x.h.time + x.m.time) := by
    refine add_of_room ⟨⌊t⌋, hwhole.of_width_le (by decide), ?_⟩ compiles_hours_minutes hh hm
    have hone : (1 : ℚ) ≤ commonUnit hours minutes := by decide +kernel
    calc x.h.time + x.m.time ≤ ⌊t⌋ := h.whole ▸ le_add_of_nonneg_right hs
      _ ≤ ⌊t⌋ * commonUnit hours minutes :=
          le_mul_of_one_le_right (Int.cast_nonneg (Int.floor_nonneg.mpr hpos)) hone
  obtain rfl : minutes = C := Except.ok.inj
    (commonType_hours_minutes.symm.trans (combine_commonType hadd).1)
  obtain ⟨C, secondsSum, hadd', htime'⟩ :
      Denotes (add minutesSum x.s) (minutesSum.time + x.s.time) := by
    refine add_of_room ⟨⌊t⌋, hwhole.of_width_le (by decide), ?_⟩ (compiles_seconds _)
      (htime ▸ add_nonneg hh hm) hs
    have hone : commonUnit minutes seconds = 1 := by decide +kernel
    rw [htime, h.whole, hone, mul_one]
  obtain rfl : seconds = C := Except.ok.inj
    (commonType_minutes_seconds.symm.trans (combine_commonType hadd').1)
  exact ⟨minutesSum, secondsSum, hadd, hadd', by rw [htime', htime, h.whole]⟩

/-- The sum of the fields counts the precision, before the sign is restored. -/
theorem fields_sum {t : ℚ} {x : HhMmSs P} (h : IsSplit t x) (hP : IsPrecision T P)
    (hpos : 0 ≤ t) (hwhole : seconds.rep.Fits ⌊t⌋) (hfits : P.rep.Fits ⌊t / P.unit⌋) :
    ∃ (D : DurationType) (dur : Duration D),
      x.toDuration = assignTo P (if x.isNeg then minus dur else .ok (some ⟨D, dur⟩)) ∧
      D.unit = P.unit ∧ dur.count = ⌊t / P.unit⌋ := by
  obtain ⟨minutesSum, secondsSum, hadd₁, hadd₂, htime⟩ := whole_fields_sum h hpos hwhole
  have hsum : secondsSum.time + x.f.time = ⌊t / P.unit⌋ * P.unit := by
    rw [htime, h.sum_eq hP]
  obtain ⟨D, dur, hadd, hdur⟩ :
      Denotes (add secondsSum x.f) (secondsSum.time + x.f.time) := by
    refine add_of_room (Room.symm ⟨⌊t / P.unit⌋, ?_, ?_⟩) (compiles_seconds P).symm ?_
      h.subseconds.1
    · exact hfits.of_width_le (Rep.width_le_common_left _ _)
    · rw [hsum, commonUnit_precision hP]
    · rw [htime]
      exact Int.cast_nonneg (Int.floor_nonneg.mpr hpos)
  have hunit : D.unit = P.unit := by
    have hD := (combine_commonType hadd).1
    rw [commonType_comm] at hD
    rw [(commonType_spec hD).2, commonUnit_precision hP]
  refine ⟨D, dur, ?_, hunit, ?_⟩
  · rw [HhMmSs.toDuration, hadd₁, andThen_some]
    change andThen (add minutesSum x.s) _ = _
    rw [hadd₂, andThen_some]
    change andThen (add secondsSum x.f) _ = _
    rw [hadd, andThen_some]
  · rw [hsum, Duration.time, hunit] at hdur
    exact_mod_cast mul_right_cancel₀ P.unit_pos.ne' hdur

theorem toDuration_spec {t : ℚ} {x : HhMmSs P} (h : IsSplit t x) (hP : IsPrecision T P)
    (hpos : 0 ≤ t) (hwhole : seconds.rep.Fits ⌊t⌋) (hfits : P.rep.Fits ⌊t / P.unit⌋) :
    ∃ r : Duration P, x.toDuration = .ok (some r) ∧
      r.count = if x.isNeg then -⌊t / P.unit⌋ else ⌊t / P.unit⌋ := by
  obtain ⟨D, dur, hrun, hunit, hcount⟩ := fields_sum h hP hpos hwhole hfits
  have hnonneg : 0 ≤ dur.count :=
    hcount ▸ Int.floor_nonneg.mpr (div_nonneg hpos P.unit_pos.le)
  rw [← hcount] at hfits ⊢
  rw [hrun]
  cases x.isNeg with
  | false => exact ⟨⟨dur.count, hfits⟩, assignTo_eq hunit hfits, rfl⟩
  | true =>
      obtain ⟨E, y, hy, hEunit, hycount⟩ := minus_spec (dur.fits.neg hnonneg)
      have hyfits : P.rep.Fits y.count := hycount.symm ▸ hfits.neg hnonneg
      refine ⟨⟨y.count, hyfits⟩, ?_, hycount⟩
      rw [if_pos rfl, hy, assignTo_eq (hEunit.trans hunit) hyfits]

/-! ## A duration and its fields -/

/-- A duration can be cast where its magnitude can. -/
theorem castFits_of_magnitude {d : Duration T} {h : T.rep.Fits |d.count|}
    (hfits : CastFits P (⟨|d.count|, h⟩ : Duration T)) : CastFits P d := by
  obtain ⟨factor, hvalue, hproduct, hquotient⟩ := hfits
  have hnum : 0 < factor.num := by
    rw [factor.num_pos_iff, hvalue]
    exact div_pos T.unit_pos P.unit_pos
  refine ⟨factor, hvalue, Rep.Fits.of_abs ?_, Rep.Fits.of_abs ?_⟩
  · rw [abs_mul, abs_of_pos hnum]
    exact hproduct
  · rw [← truncate_abs, abs_div, abs_of_pos P.unit_pos, ← time_magnitude h]
    exact hquotient

/-- Where the denominator divides the one of the precision, nothing is cut
off. -/
theorem time_eq_of_dvd {d : Duration T} {r : Duration P} (hP : P.period.num = 1)
    (hdvd : T.period.den ∣ P.period.den) (hr : r.count = truncate (d.time / P.unit)) :
    r.time = d.time := by
  obtain ⟨j, hj⟩ := hdvd
  have hwhole : d.time / P.unit = (d.count * (T.period.num * j) : ℤ) := by
    rw [Duration.time, DurationType.unit, Ratio.value, unit_of_num_one hP, one_div,
      div_inv_eq_mul, hj]
    push_cast
    field_simp [T.period.cast_den_ne]
  rw [hwhole, truncate_intCast] at hr
  rw [Duration.time, hr, ← hwhole, div_mul_cancel₀ _ P.unit_pos.ne']

/-- The fields of a duration in range have the sign apart and are bounded like
the digits of a clock.  Their sum is the duration in the precision, rounded
towards zero, and is the duration itself where the denominator of the period
divides a power of ten within reach. -/
theorem hh_mm_ss_split (T : DurationType) :
    ∃ P, precision T = .ok P ∧ ∀ d : Duration T, ScaledFits P d →
      ∃ x : HhMmSs P, HhMmSs.ofDuration P d = .ok (some x) ∧
        (x.isNeg = true ↔ d.time < 0) ∧ 0 ≤ x.h.count ∧
        (0 ≤ x.m.count ∧ x.m.count ≤ 59) ∧ (0 ≤ x.s.count ∧ x.s.count ≤ 59) ∧
        (0 ≤ x.f.time ∧ x.f.time < 1) ∧
        ∃ r : Duration P, x.toDuration = .ok (some r) ∧ castTo P d = .ok (some r) ∧
          r.count = truncate (d.time / P.unit) ∧
          ((∃ k ≤ 18, T.period.den ∣ 10 ^ k) → r.time = d.time) := by
  obtain ⟨P, hprecision, hP⟩ := precision_spec T
  refine ⟨P, hprecision, ?_⟩
  intro d h
  obtain ⟨x, hx, hneg, hsplit⟩ := ofDuration_spec hP h
  have hprec := h.precision
  obtain ⟨t, hcast, ht⟩ := castTo_spec (castFits_of_magnitude hprec)
  have hnonneg : 0 ≤ |d.time| / P.unit := div_nonneg (abs_nonneg _) P.unit_pos.le
  have hfits : P.rep.Fits ⌊|d.time| / P.unit⌋ := by
    obtain ⟨-, -, -, hquotient⟩ := hprec
    rwa [time_magnitude, truncate_of_nonneg hnonneg] at hquotient
  obtain ⟨r, hr, hcount⟩ := toDuration_spec hsplit hP (abs_nonneg _) h.whole hfits
  have htruncate : r.count = truncate (d.time / P.unit) := by
    rw [hcount, hneg, ← truncate_of_nonneg hnonneg]
    by_cases hsign : d.time < 0
    · rw [decide_eq_true hsign, if_pos rfl, abs_of_neg hsign, neg_div, truncate_neg,
        neg_neg]
    · rw [decide_eq_false hsign, if_neg (by decide), abs_of_nonneg (not_lt.mp hsign)]
  obtain rfl : t = r := Duration.ext (ht.trans htruncate.symm)
  refine ⟨x, hx, ?_, hsplit.hours, hsplit.minutes, hsplit.seconds, hsplit.subseconds,
    t, hr, hcast, htruncate, ?_⟩
  · rw [hneg, decide_eq_true_eq]
  · rintro ⟨k, hk, hdvd⟩
    refine time_eq_of_dvd hP.num ?_ htruncate
    rw [hP.den]
    exact dvd_fractionalWidth T.period.den_pos hk hdvd

/-- An hour, two minutes, three seconds and four milliseconds before zero. -/
theorem hh_mm_ss_split_milliseconds :
    let d : Duration milliseconds := ⟨-3723004, by decide⟩
    ∃ x : HhMmSs milliseconds, HhMmSs.ofDuration milliseconds d = .ok (some x) ∧
      (x.h.count, x.m.count, x.s.count, x.f.count) = (1, 2, 3, 4) ∧
      ∃ r, x.toDuration = .ok (some r) ∧ r.time = d.time := by
  intro d
  have hprecision : precision milliseconds = .ok milliseconds := by decide +kernel
  have hrun : HhMmSs.ofDuration milliseconds d = .ok (some
      ⟨true, ⟨1, by decide⟩, ⟨2, by decide⟩, ⟨3, by decide⟩, ⟨4, by decide⟩⟩) := by
    decide +kernel
  have hfits : ScaledFits milliseconds d := by
    refine ⟨?_, by decide, by decide, by decide +kernel, ?_⟩
    · rw [compiles_whole rfl]
      decide +kernel
    · exact ⟨⟨1, 1, by decide, by decide, by decide, isCoprime_one_left⟩,
        by decide +kernel, by decide, by decide +kernel⟩
  obtain ⟨P, hP, hsplit⟩ := hh_mm_ss_split milliseconds
  obtain rfl : milliseconds = P := Except.ok.inj (hprecision.symm.trans hP)
  obtain ⟨x, hx, -, -, -, -, -, r, hr, -, -, hexact⟩ := hsplit d hfits
  obtain rfl := Option.some.inj (Except.ok.inj (hrun.symm.trans hx))
  exact ⟨_, hrun, rfl, r, hr, hexact ⟨3, by decide, by decide⟩⟩

end Libhipcxx.Chrono
