import Libhipcxx.Rational.Arithmetic
import Mathlib.Data.Rat.Lemmas
import Mathlib.Tactic.FieldSimp

/-!
# Compile-time arithmetic is rational arithmetic

The meaning of a valid ratio is a rational number in lowest terms.  Product
and quotient cancel across the operands first, so their guarded products are
the numerator and the denominator of the result up to a sign, and the guards
fail only where the result has no ratio.  The sum is a product of two ratios
whose value does not depend on what was cancelled.
-/

namespace Libhipcxx.Rational

/-! ## The meaning of a ratio -/

def Ratio.value (R : Ratio) : ℚ := R.num / R.den

/-- A rational number whose terms are of magnitude at most `INTMAX_MAX`. -/
def Representable (q : ℚ) : Prop := |q.num| ≤ max ∧ (q.den : ℤ) ≤ max

def Accepted (e : Except Failure Ratio) : Prop := ∃ R, e = .ok R

instance (q : ℚ) : Decidable (Representable q) :=
  inferInstanceAs (Decidable (_ ∧ _))

/-- A result has the terms of the given number, and a failure is that of an
assertion. -/
inductive Exact (q : ℚ) : Except Failure Ratio → Prop
  | ok (R : Ratio) (hnum : R.num = q.num) (hden : R.den = q.den) :
      Exact q (.ok R)
  | rejected : Exact q (.error .assertion)

theorem Ratio.natAbs_coprime (R : Ratio) :
    Nat.Coprime R.num.natAbs R.den.natAbs :=
  Int.isCoprime_iff_gcd_eq_one.mp R.reduced

theorem Ratio.num_value (R : Ratio) : R.value.num = R.num :=
  Rat.num_div_eq_of_coprime R.den_pos R.natAbs_coprime

theorem Ratio.den_value (R : Ratio) : (R.value.den : ℤ) = R.den :=
  Rat.den_div_eq_of_coprime R.den_pos R.natAbs_coprime

theorem Ratio.num_pos_iff (R : Ratio) : 0 < R.num ↔ 0 < R.value := by
  rw [← R.num_value, Rat.num_pos]

theorem Exact.of_value {q : ℚ} {R : Ratio} (h : R.value = q) :
    Exact q (.ok R) := by
  refine Exact.ok R ?_ ?_
  · rw [← h, R.num_value]
  · rw [← h, R.den_value]

theorem Ratio.value_injective {R R' : Ratio} (h : R.value = R'.value) :
    R = R' := by
  refine Ratio.ext ?_ ?_
  · rw [← R.num_value, ← R'.num_value, h]
  · rw [← R.den_value, ← R'.den_value, h]

theorem Exact.value_eq {q : ℚ} {R : Ratio} (h : Exact q (.ok R)) :
    R.value = q := by
  cases h with
  | ok _ hnum hden =>
      rw [Ratio.value, hnum, hden, Int.cast_natCast, Rat.num_div_den]

theorem Ratio.representable_value (R : Ratio) : Representable R.value := by
  rw [Representable, R.num_value, R.den_value]
  exact ⟨R.num_le, R.den_le⟩

theorem Ratio.abs_den_le (R : Ratio) : |R.den| ≤ max :=
  (abs_of_pos R.den_pos).trans_le R.den_le

theorem Ratio.cast_den_pos (R : Ratio) : (0 : ℚ) < R.den := Int.cast_pos.mpr R.den_pos

theorem Ratio.cast_den_ne (R : Ratio) : (R.den : ℚ) ≠ 0 := R.cast_den_pos.ne'

/-- Reduction does not make a numerator greater. -/
theorem Ratio.num_le_of_value {R : Ratio} {a b : ℤ} (ha : 0 < a) (hb : b ≠ 0)
    (h : R.value = a / b) : R.num ≤ a := by
  rw [← R.num_value, h, ← Rat.divInt_eq_div]
  exact Int.le_of_dvd ha (Rat.num_dvd _ hb)

/-- A fraction without common factor is representable where its terms are. -/
theorem representable_div {a b : ℤ} (hb : b ≠ 0) (hcop : IsCoprime a b) :
    Representable (a / b : ℚ) ↔ |a| ≤ max ∧ |b| ≤ max := by
  have hnat : Nat.Coprime a.natAbs b.natAbs :=
    Int.isCoprime_iff_gcd_eq_one.mp hcop
  rcases lt_or_gt_of_ne hb with hneg | hpos
  · have hflip : (a / b : ℚ) = ((-a : ℤ) : ℚ) / ((-b : ℤ) : ℚ) := by
      rw [Int.cast_neg, Int.cast_neg, neg_div_neg_eq]
    have hnat' : Nat.Coprime (-a).natAbs (-b).natAbs := by
      rwa [Int.natAbs_neg, Int.natAbs_neg]
    rw [Representable, hflip, Rat.num_div_eq_of_coprime (by omega) hnat',
      Rat.den_div_eq_of_coprime (by omega) hnat', abs_neg, abs_of_neg hneg]
  · rw [Representable, Rat.num_div_eq_of_coprime hpos hnat,
      Rat.den_div_eq_of_coprime hpos hnat, abs_of_pos hpos]

/-! ## Specifications of the templates -/

theorem ratio_eq_ok_iff {Num Den : ℤ} {R : Ratio} :
    ratio Num Den = .ok R ↔ members Num Den = .ok (R.num, R.den) := by
  rw [ratio]
  split
  · rename_i num den h
    simp [h, Ratio.ext_iff]
  · rename_i failure h
    simp [h]

theorem ratio_eq {Num Den : ℤ} (hnum : |Num| ≤ max) (hden : |Den| ≤ max)
    (hzero : Den ≠ 0) :
    ∃ R, ratio Num Den = .ok R ∧ R.value = Num / Den := by
  obtain ⟨num, den, h, hcross, hpos, hden', hnum', hcop⟩ :=
    members_eq hnum hden hzero
  refine ⟨⟨num, den, hpos, hden', hnum', hcop⟩, ratio_eq_ok_iff.mpr h, ?_⟩
  rw [Ratio.value, div_eq_div_iff (by exact_mod_cast hpos.ne')
    (by exact_mod_cast hzero)]
  exact_mod_cast hcross

theorem ok_bind {α β : Type} (a : α) (f : α → Except Failure β) :
    (Except.ok a >>= f) = f a := rfl

/-- The end of a product or quotient: a ratio of two guarded products. -/
def guardedRatio (num den : ℤ) : Except Failure Ratio := do
  ratio (← guarded num) (← guarded den)

theorem guardedRatio_spec {num den : ℤ} (hden : den ≠ 0)
    (hcop : IsCoprime num den) :
    Exact (num / den) (guardedRatio num den) ∧
      (Representable (num / den : ℚ) → Accepted (guardedRatio num den)) := by
  rw [representable_div hden hcop, guardedRatio]
  by_cases hnum : |num| ≤ max
  · by_cases hle : |den| ≤ max
    · obtain ⟨R, hR, hvalue⟩ := ratio_eq hnum hle hden
      simp only [guarded, hnum, hle, if_true, ok_bind, hR]
      exact ⟨Exact.of_value hvalue, fun _ => ⟨R, rfl⟩⟩
    · simp only [guarded, hnum, hle, if_true, if_false, ok_bind]
      exact ⟨Exact.rejected, by simp⟩
  · simp only [guarded, hnum, if_false]
    exact ⟨Exact.rejected, by simp⟩

/-- Divisors of numbers without common factor have none either. -/
theorem coprime_of_mul {x y g a h b : ℤ} (hx : x = g * a) (hy : y = h * b)
    (hcop : IsCoprime x y) : IsCoprime a b := by
  rw [hx, hy] at hcop
  exact hcop.of_mul_left_right.of_mul_right_right

theorem coprime_products {a b c d : ℤ} (hac : IsCoprime a c)
    (had : IsCoprime a d) (hbc : IsCoprime b c) (hbd : IsCoprime b d) :
    IsCoprime (a * b) (c * d) :=
  (hac.mul_right had).mul_left (hbc.mul_right hbd)

theorem Cancelled.left_ne {x y g a b : ℤ} (hc : Cancelled x y g a b)
    (hx : x ≠ 0) : a ≠ 0 := by
  rintro rfl
  exact hx (by rw [hc.left_eq, mul_zero])

theorem Cancelled.right_ne {x y g a b : ℤ} (hc : Cancelled x y g a b)
    (hy : y ≠ 0) : b ≠ 0 := by
  rintro rfl
  exact hy (by rw [hc.right_eq, mul_zero])

theorem ratioMultiply_spec (R₁ R₂ : Ratio) :
    Exact (R₁.value * R₂.value) (ratioMultiply R₁ R₂) ∧
      (Representable (R₁.value * R₂.value) →
        Accepted (ratioMultiply R₁ R₂)) := by
  obtain ⟨g, a, c, hg⟩ := exists_cancelled R₁.num_le R₂.abs_den_le
  obtain ⟨h, d, b, hh⟩ := exists_cancelled R₁.abs_den_le R₂.num_le
  have hden : c * d ≠ 0 :=
    mul_ne_zero (hg.right_ne R₂.den_pos.ne') (hh.left_ne R₁.den_pos.ne')
  -- The cross-cancelled pairs are coprime by the gcds, the others because the
  -- operands are in lowest terms.
  have hcop : IsCoprime (a * b) (c * d) :=
    coprime_products (hg.coprime (Or.inr R₂.den_pos.ne'))
      (coprime_of_mul hg.left_eq hh.left_eq R₁.reduced)
      (coprime_of_mul hh.right_eq hg.right_eq R₂.reduced)
      (hh.coprime (Or.inl R₁.den_pos.ne')).symm
  have hvalue : R₁.value * R₂.value = ((a * b : ℤ) : ℚ) / ((c * d : ℤ) : ℚ) := by
    rw [Ratio.value, Ratio.value, div_mul_div_comm,
      div_eq_div_iff (mul_ne_zero R₁.cast_den_ne R₂.cast_den_ne)
        (Int.cast_ne_zero.mpr hden)]
    norm_cast
    rw [hg.left_eq, hg.right_eq, hh.left_eq, hh.right_eq]
    ring
  have hrun : ratioMultiply R₁ R₂ = guardedRatio (a * b) (c * d) := by
    simp only [ratioMultiply, guardedRatio, hg.gcd_eq, hh.gcd_eq,
      hg.left_quotient, hg.right_quotient, hh.left_quotient, hh.right_quotient,
      ok_bind, llMul_eq hg.left_le hh.right_le, llMul_eq hg.right_le hh.left_le]
  rw [hrun, hvalue]
  exact guardedRatio_spec hden hcop

/-- A quotient in terms of what is left when the numerators and the
denominators have been cancelled. -/
theorem quotient_cancelled {R₁ R₂ : Ratio} {g a c h d b : ℤ}
    (hg : Cancelled R₁.num R₂.num g a c) (hh : Cancelled R₁.den R₂.den h d b)
    (hzero : R₂.num ≠ 0) :
    c * d ≠ 0 ∧ IsCoprime (a * b) (c * d) ∧
      R₁.value / R₂.value = ((a * b : ℤ) : ℚ) / ((c * d : ℤ) : ℚ) := by
  have hden : c * d ≠ 0 :=
    mul_ne_zero (hg.right_ne hzero) (hh.left_ne R₁.den_pos.ne')
  refine ⟨hden, ?_, ?_⟩
  · exact coprime_products (hg.coprime (Or.inr hzero))
      (coprime_of_mul hg.left_eq hh.left_eq R₁.reduced)
      (coprime_of_mul hg.right_eq hh.right_eq R₂.reduced).symm
      (hh.coprime (Or.inl R₁.den_pos.ne')).symm
  · rw [Ratio.value, Ratio.value, div_div_div_eq,
      div_eq_div_iff (mul_ne_zero R₁.cast_den_ne (Int.cast_ne_zero.mpr hzero))
        (Int.cast_ne_zero.mpr hden)]
    norm_cast
    rw [hg.left_eq, hg.right_eq, hh.left_eq, hh.right_eq]
    ring

theorem ratioDivide_spec (R₁ R₂ : Ratio) (hzero : R₂.num ≠ 0) :
    Exact (R₁.value / R₂.value) (ratioDivide R₁ R₂) ∧
      (Representable (R₁.value / R₂.value) → Accepted (ratioDivide R₁ R₂)) := by
  obtain ⟨g, a, c, hg⟩ := exists_cancelled R₁.num_le R₂.num_le
  obtain ⟨h, d, b, hh⟩ := exists_cancelled R₁.abs_den_le R₂.abs_den_le
  obtain ⟨hden, hcop, hvalue⟩ := quotient_cancelled hg hh hzero
  have hrun : ratioDivide R₁ R₂ = guardedRatio (a * b) (c * d) := by
    simp only [ratioDivide, guardedRatio, hg.gcd_eq, hh.gcd_eq,
      hg.left_quotient, hg.right_quotient, hh.left_quotient, hh.right_quotient,
      ok_bind, llMul_eq hg.left_le hh.right_le, llMul_eq hg.right_le hh.left_le]
  rw [hrun, hvalue]
  exact guardedRatio_spec hden hcop

theorem ratioDivide_eq {R₁ R₂ : Ratio} (hzero : R₂.num ≠ 0)
    (h : Representable (R₁.value / R₂.value)) :
    ∃ R, ratioDivide R₁ R₂ = .ok R ∧ R.value = R₁.value / R₂.value := by
  obtain ⟨hexact, haccepted⟩ := ratioDivide_spec R₁ R₂ hzero
  obtain ⟨R, hR⟩ := haccepted h
  rw [hR] at hexact
  exact ⟨R, hR, hexact.value_eq⟩

/-! ## Positive operands -/

theorem staticGcd_of_pos {x y : ℤ} (hx : 0 < x) (hy : 0 < y) (hxle : x ≤ max)
    (hyle : y ≤ max) : staticGcd x y = .ok (Int.gcd x y) := by
  obtain ⟨g, hg, -, -, habs, hpos⟩ :=
    staticGcd_eq ((abs_of_pos hx).trans_le hxle) ((abs_of_pos hy).trans_le hyle)
  rw [hg, ← habs (Or.inl hx.ne'), Int.natAbs_of_nonneg (hpos hx.le hy.le).le]

/-- The least common multiple, unless it is out of range. -/
theorem staticLcm_of_pos {x y : ℤ} (hx : 0 < x) (hy : 0 < y) (hxle : x ≤ max)
    (hyle : y ≤ max) : staticLcm x y = intmax (Int.lcm x y) := by
  have hgpos : 0 < Int.gcd x y := Int.gcd_pos_of_ne_zero_left _ hx.ne'
  obtain ⟨a, ha⟩ := Int.gcd_dvd_left x y
  have hquotient : quotient x (Int.gcd x y) = .ok a := by
    have hg : (Int.gcd x y : ℤ) ≠ 0 := Nat.cast_ne_zero.mpr hgpos.ne'
    have hle : |(Int.gcd x y : ℤ) * a| ≤ max := by
      rw [← ha]
      exact (abs_of_pos hx).trans_le hxle
    have h := quotient_mul_left hg hle
    rwa [← ha] at h
  have hlcm : a * y = Int.lcm x y := by
    have hmul : (Int.gcd x y : ℤ) * Int.lcm x y = x * y := by
      rw [← Int.natCast_mul, Int.gcd_mul_lcm, ← Int.natAbs_mul,
        Int.natAbs_of_nonneg (mul_pos hx hy).le]
    have hcancel : (Int.gcd x y : ℤ) * (a * y) = Int.gcd x y * Int.lcm x y := by
      rw [← mul_assoc, ← ha, hmul]
    exact mul_left_cancel₀ (by omega) hcancel
  simp only [staticLcm, staticGcd_of_pos hx hy hxle hyle, ok_bind, hquotient,
    hlcm]

/-! ## Results that pass through a guard -/

theorem Exact.guarded_bind {q : ℚ} {x : ℤ} {f : ℤ → Except Failure Ratio}
    (h : |x| ≤ max → Exact q (f x)) : Exact q (guarded x >>= f) := by
  rw [guarded]
  split
  · rename_i hx
    exact h hx
  · exact Exact.rejected

theorem ratio_zero (Num : ℤ) (hnum : |Num| ≤ max) :
    ratio Num 0 = .error .assertion := by
  have h : members Num 0 = .error .assertion := by
    have hzero : intmax 0 = .ok 0 := intmax_of_abs_le (by decide)
    simp only [members, intmax_of_abs_le hnum, staticAbs_of_abs_le hnum, hzero,
      ok_bind, require_true (abs_nonneg Num)]
    rfl
  rw [ratio]
  split
  · simp_all
  · rename_i failure h'
    rw [h, Except.error.injEq] at h'
    rw [h']

/-- Dividing by a zero ratio fires an assertion. -/
theorem ratioDivide_zero {q : ℚ} (R₁ R₂ : Ratio) (hzero : R₂.num = 0) :
    Exact q (ratioDivide R₁ R₂) := by
  obtain ⟨g, a, c, hg⟩ := exists_cancelled R₁.num_le R₂.num_le
  obtain ⟨h, d, b, hh⟩ := exists_cancelled R₁.abs_den_le R₂.abs_den_le
  have hc : c = 0 := by
    have hright := hg.right_eq
    rw [hzero] at hright
    exact (mul_eq_zero.mp hright.symm).resolve_left hg.gcd_ne
  simp only [ratioDivide, hg.gcd_eq, hh.gcd_eq, hg.left_quotient,
    hg.right_quotient, hh.left_quotient, hh.right_quotient, ok_bind,
    llMul_eq hg.left_le hh.right_le, llMul_eq hg.right_le hh.left_le]
  refine Exact.guarded_bind fun hnum => Exact.guarded_bind fun _ => ?_
  rw [hc, zero_mul, ratio_zero _ hnum]
  exact Exact.rejected

/-- Sum and difference, as `R₁ + u * R₂` for a sign `u`. -/
theorem ratioCombine_spec (R₁ R₂ : Ratio) {u : ℤ}
    {op : ℤ → ℤ → Except Failure ℤ}
    (hop : ∀ x y, |x| ≤ max → |y| ≤ max → op x y = guarded (x + u * y)) :
    Exact (R₁.value + u * R₂.value) (ratioCombine op R₁ R₂) := by
  obtain ⟨g, a, b, hg⟩ := exists_cancelled R₁.num_le R₂.num_le
  obtain ⟨h, c, d, hh⟩ := exists_cancelled R₁.abs_den_le R₂.abs_den_le
  have hc : c ≠ 0 := hh.left_ne R₁.den_pos.ne'
  obtain ⟨common, hcommon, hvalue⟩ := ratio_eq hg.gcd_le hh.left_le hc
  simp only [ratioCombine, hg.gcd_eq, hh.gcd_eq, hg.left_quotient,
    hg.right_quotient, hh.left_quotient, hh.right_quotient, ok_bind, hcommon,
    llMul_eq hg.left_le hh.right_le, llMul_eq hg.right_le hh.left_le]
  refine Exact.guarded_bind fun hleft => Exact.guarded_bind fun hright => ?_
  rw [hop _ _ hleft hright]
  refine Exact.guarded_bind fun hsum => ?_
  obtain ⟨part, hpart, hvalue'⟩ :=
    ratio_eq hsum R₂.abs_den_le R₂.den_pos.ne'
  rw [hpart, ok_bind]
  have hsame : R₁.value + u * R₂.value = common.value * part.value := by
    have hd₁ := R₁.cast_den_ne
    have hd₂ := R₂.cast_den_ne
    have hc' : (c : ℚ) ≠ 0 := Int.cast_ne_zero.mpr hc
    rw [hvalue, hvalue', Ratio.value, Ratio.value]
    field_simp
    norm_cast
    rw [hg.left_eq, hg.right_eq, hh.left_eq, hh.right_eq]
    ring
  rw [hsame]
  exact (ratioMultiply_spec common part).1

theorem Exact.ok_iff_of_complete {q : ℚ} {e : Except Failure Ratio}
    (h : Exact q e ∧ (Representable q → Accepted e)) :
    Accepted e ↔ Representable q := by
  refine ⟨?_, h.2⟩
  rintro ⟨R, rfl⟩
  rw [← h.1.value_eq]
  exact R.representable_value

/-- Products and quotients are accepted exactly where the rational result has
a ratio.  An accepted operation has the terms of the rational result, and one
that is not accepted fires an assertion: nothing unguarded overflows. -/
theorem ratio_arithmetic (R₁ R₂ : Ratio) :
    (Accepted (ratioMultiply R₁ R₂) ↔ Representable (R₁.value * R₂.value)) ∧
    (R₂.num ≠ 0 →
      (Accepted (ratioDivide R₁ R₂) ↔ Representable (R₁.value / R₂.value))) ∧
    Exact (R₁.value + R₂.value) (ratioAdd R₁ R₂) ∧
    Exact (R₁.value - R₂.value) (ratioSubtract R₁ R₂) ∧
    Exact (R₁.value * R₂.value) (ratioMultiply R₁ R₂) ∧
    Exact (R₁.value / R₂.value) (ratioDivide R₁ R₂) := by
  have hmul := ratioMultiply_spec R₁ R₂
  refine ⟨Exact.ok_iff_of_complete hmul, ?_, ?_, ?_, hmul.1, ?_⟩
  · intro hzero
    exact Exact.ok_iff_of_complete (ratioDivide_spec R₁ R₂ hzero)
  · have hadd : ∀ x y, |x| ≤ max → |y| ≤ max →
        llAdd x y = guarded (x + 1 * y) := by
      intro x y hx hy
      rw [one_mul]
      exact llAdd_eq hx hy
    simpa [ratioAdd] using ratioCombine_spec R₁ R₂ hadd
  · have hsub : ∀ x y, |x| ≤ max → |y| ≤ max →
        llSub x y = guarded (x + -1 * y) := by
      intro x y hx hy
      rw [neg_one_mul, ← sub_eq_add_neg]
      exact llSub_eq hx hy
    simpa [ratioSubtract, sub_eq_add_neg] using ratioCombine_spec R₁ R₂ hsub
  · by_cases hzero : R₂.num = 0
    · exact ratioDivide_zero R₁ R₂ hzero
    · exact (ratioDivide_spec R₁ R₂ hzero).1

example :
    (do ratioSubtract (← ratio 1 (-2)) (← ratio 2 12)) = ratio (-2) 3 := by
  decide +kernel

end Libhipcxx.Rational
