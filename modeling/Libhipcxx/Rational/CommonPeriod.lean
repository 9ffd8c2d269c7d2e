import Libhipcxx.Rational.Exact
import Libhipcxx.Support.CommonUnit

/-!
# The greatest common unit of two ratios

`__ratio_gcd` takes the gcd of the numerators and the lcm of the denominators
of two positive ratios.  Where the lcm is in range the two are the terms of the
result, and the result is the greatest common unit of both.
-/

namespace Libhipcxx.Rational

open CommonUnit

variable {R₁ R₂ R : Ratio}

/-- An accepted result has the gcd and the lcm as its terms. -/
theorem ratioGcd_terms (h₁ : 0 < R₁.num) (h₂ : 0 < R₂.num)
    (h : ratioGcd R₁ R₂ = .ok R) :
    R.num = Int.gcd R₁.num R₂.num ∧ R.den = Int.lcm R₁.den R₂.den := by
  have hle₁ := (abs_le.mp R₁.num_le).2
  have hle₂ := (abs_le.mp R₂.num_le).2
  simp only [ratioGcd, staticGcd_of_pos h₁ h₂ hle₁ hle₂,
    staticLcm_of_pos R₁.den_pos R₂.den_pos R₁.den_le R₂.den_le, ok_bind,
    bind_eq_ok] at h
  obtain ⟨lcm, hlcm, hratio⟩ := h
  obtain ⟨rfl, -, -⟩ := abs_le_of_intmax hlcm
  obtain ⟨hnum_le, hden_le, hden⟩ := members_range (ratio_eq_ok_iff.mp hratio)
  obtain ⟨R', hR', hvalue⟩ := ratio_eq hnum_le hden_le hden
  obtain rfl : R' = R := Except.ok.inj (hR'.symm.trans hratio)
  have hlcm_pos : 0 < (Int.lcm R₁.den R₂.den : ℤ) :=
    Nat.cast_pos.mpr (Int.lcm_pos R₁.den_pos.ne' R₂.den_pos.ne')
  have hcop := Int.isCoprime_iff_gcd_eq_one.mp (coprime_gcd_lcm R₁.reduced R₂.reduced)
  rw [← R'.num_value, ← R'.den_value, hvalue]
  exact ⟨Rat.num_div_eq_of_coprime hlcm_pos hcop, Rat.den_div_eq_of_coprime hlcm_pos hcop⟩

theorem ratioGcd_value (h₁ : 0 < R₁.num) (h₂ : 0 < R₂.num)
    (h : ratioGcd R₁ R₂ = .ok R) :
    R.value = (Int.gcd R₁.num R₂.num : ℕ) / (Int.lcm R₁.den R₂.den : ℕ) := by
  obtain ⟨hnum, hden⟩ := ratioGcd_terms h₁ h₂ h
  rw [Ratio.value, hnum, hden, Int.cast_natCast, Int.cast_natCast]

/-- An accepted result is in lowest terms as it is computed, both ratios are
whole multiples of it, and so is it of every rational number of which both are:
no positive one is greater. -/
theorem ratioGcd_greatest (h₁ : 0 < R₁.num) (h₂ : 0 < R₂.num)
    (h : ratioGcd R₁ R₂ = .ok R) :
    (staticGcd R₁.num R₂.num = .ok R.num ∧ staticLcm R₁.den R₂.den = .ok R.den ∧
      IsCoprime R.num R.den) ∧
    IsMultiple R₁.value R.value ∧ IsMultiple R₂.value R.value ∧
    ∀ unit : ℚ, IsMultiple R₁.value unit → IsMultiple R₂.value unit →
      IsMultiple R.value unit ∧ unit ≤ R.value := by
  have hle₁ := (abs_le.mp R₁.num_le).2
  have hle₂ := (abs_le.mp R₂.num_le).2
  obtain ⟨hnum, hden⟩ := ratioGcd_terms h₁ h₂ h
  have hvalue := ratioGcd_value h₁ h₂ h
  have hpos : 0 < R.value := by
    rw [← R.num_pos_iff, hnum]
    exact Nat.cast_pos.mpr (Int.gcd_pos_of_ne_zero_left _ h₁.ne')
  refine ⟨⟨?_, ?_, R.reduced⟩, ?_, ?_, ?_⟩
  · rw [staticGcd_of_pos h₁ h₂ hle₁ hle₂, hnum]
  · rw [staticLcm_of_pos R₁.den_pos R₂.den_pos R₁.den_le R₂.den_le, ← hden]
    exact intmax_of_abs_le R.abs_den_le
  · rw [hvalue]
    exact isMultiple_left _ _ R₁.den_pos.ne' R₂.den_pos.ne'
  · rw [hvalue]
    exact isMultiple_right _ _ R₁.den_pos.ne' R₂.den_pos.ne'
  · intro unit hunit₁ hunit₂
    have hcommon : IsMultiple R.value unit := by
      rw [hvalue]
      exact isMultiple_common R₁.reduced R₂.reduced h₁.ne' R₁.den_pos R₂.den_pos
        hunit₁ hunit₂
    refine ⟨hcommon, ?_⟩
    rcases le_or_gt unit 0 with hle | hunit
    · exact hle.trans hpos.le
    · exact hcommon.le hpos hunit

/-- The common unit of two thirds and three halves is a sixth. -/
theorem ratioGcd_greatest_sixth :
    ∃ R₁ R₂ R : Ratio, ratio 2 3 = .ok R₁ ∧ ratio 6 4 = .ok R₂ ∧
      ratioGcd R₁ R₂ = .ok R ∧ R.num = 1 ∧ R.den = 6 ∧
      ∀ unit : ℚ, IsMultiple R₁.value unit → IsMultiple R₂.value unit →
        unit ≤ R.value := by
  refine ⟨⟨2, 3, by decide, by decide, by decide, ⟨-1, 1, by decide⟩⟩,
    ⟨3, 2, by decide, by decide, by decide, ⟨1, -1, by decide⟩⟩,
    ⟨1, 6, by decide, by decide, by decide, isCoprime_one_left⟩, by decide +kernel,
    by decide +kernel, by decide +kernel, rfl, rfl, ?_⟩
  intro unit hunit₁ hunit₂
  exact ((ratioGcd_greatest (by decide) (by decide) (by decide +kernel)).2.2.2 unit
    hunit₁ hunit₂).2

end Libhipcxx.Rational
