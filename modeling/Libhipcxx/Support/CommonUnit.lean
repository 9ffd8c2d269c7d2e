import Mathlib.Data.Int.GCD
import Mathlib.Data.Rat.Lemmas
import Mathlib.RingTheory.Coprime.Lemmas
import Mathlib.RingTheory.Int.Basic
import Mathlib.Tactic.FieldSimp

/-!
# Common units of two fractions

The gcd of the numerators over the lcm of the denominators is the greatest
rational number of which two fractions in lowest terms are whole multiples.
It is in lowest terms itself, and a whole combination of the two fractions.
-/

namespace Libhipcxx.CommonUnit

/-- A rational number is a whole number of times a unit. -/
def IsMultiple (q unit : ℚ) : Prop := ∃ k : ℤ, q = k * unit

theorem IsMultiple.combine {x y unit : ℚ} (hx : IsMultiple x unit)
    (hy : IsMultiple y unit) (a b : ℤ) : IsMultiple (a * x + b * y) unit := by
  obtain ⟨k, rfl⟩ := hx
  obtain ⟨l, rfl⟩ := hy
  refine ⟨a * k + b * l, ?_⟩
  push_cast
  ring

/-- A positive multiple of a positive unit is not below it. -/
theorem IsMultiple.le {q unit : ℚ} (h : IsMultiple q unit) (hq : 0 < q)
    (hunit : 0 < unit) : unit ≤ q := by
  obtain ⟨k, rfl⟩ := h
  have hk : 0 < k := by
    rwa [mul_pos_iff_of_pos_right hunit, Int.cast_pos] at hq
  have hone : (1 : ℚ) ≤ k := by exact_mod_cast hk
  exact le_mul_of_one_le_left hunit.le hone

variable {n₁ d₁ n₂ d₂ : ℤ}

theorem coprime_gcd_lcm (h₁ : IsCoprime n₁ d₁) (h₂ : IsCoprime n₂ d₂) :
    IsCoprime (Int.gcd n₁ n₂ : ℤ) (Int.lcm d₁ d₂) := by
  have hgcd₁ := h₁.of_isCoprime_of_dvd_left (Int.gcd_dvd_left n₁ n₂)
  have hgcd₂ := h₂.of_isCoprime_of_dvd_left (Int.gcd_dvd_right n₁ n₂)
  exact (hgcd₁.mul_right hgcd₂).of_isCoprime_of_dvd_right (Int.lcm_dvd_mul _ _)

/-- A fraction is a whole multiple of the common unit. -/
theorem isMultiple_left (n₁ n₂ : ℤ) (hd₁ : d₁ ≠ 0) (hd₂ : d₂ ≠ 0) :
    IsMultiple (n₁ / d₁) ((Int.gcd n₁ n₂ : ℕ) / (Int.lcm d₁ d₂ : ℕ)) := by
  obtain ⟨a, ha⟩ := Int.gcd_dvd_left n₁ n₂
  obtain ⟨b, hb⟩ := Int.dvd_lcm_left d₁ d₂
  have hlcm : (Int.lcm d₁ d₂ : ℤ) ≠ 0 :=
    Nat.cast_ne_zero.mpr (Int.lcm_pos hd₁ hd₂).ne'
  have hb0 : b ≠ 0 := right_ne_zero_of_mul (hb ▸ hlcm)
  have hd : (d₁ : ℚ) ≠ 0 := Int.cast_ne_zero.mpr hd₁
  have hb' : (b : ℚ) ≠ 0 := Int.cast_ne_zero.mpr hb0
  have hnum : (n₁ : ℚ) = (Int.gcd n₁ n₂ : ℕ) * a := by exact_mod_cast ha
  have hden : ((Int.lcm d₁ d₂ : ℕ) : ℚ) = d₁ * b := by exact_mod_cast hb
  refine ⟨a * b, ?_⟩
  rw [hden, hnum]
  push_cast
  field_simp

theorem isMultiple_right (n₁ n₂ : ℤ) (hd₁ : d₁ ≠ 0) (hd₂ : d₂ ≠ 0) :
    IsMultiple (n₂ / d₂) ((Int.gcd n₁ n₂ : ℕ) / (Int.lcm d₁ d₂ : ℕ)) := by
  rw [Int.gcd_comm, Int.lcm_comm]
  exact isMultiple_left n₂ n₁ hd₂ hd₁

/-- The lcm of two denominators, from what their gcd leaves of them. -/
theorem exists_lcm_cofactors (hd₁ : 0 < d₁) (hd₂ : 0 < d₂) :
    ∃ e₁ e₂ : ℤ, IsCoprime e₁ e₂ ∧ (Int.lcm d₁ d₂ : ℤ) = d₁ * e₁ ∧
      (Int.lcm d₁ d₂ : ℤ) = d₂ * e₂ ∧ e₁ ∣ d₂ ∧ e₂ ∣ d₁ := by
  have hgcd : 0 < Int.gcd d₁ d₂ := Int.gcd_pos_of_ne_zero_left _ hd₁.ne'
  obtain ⟨e₂, e₁, hone, h₁, h₂⟩ := Int.exists_gcd_one hgcd
  have hg : (Int.gcd d₁ d₂ : ℤ) ≠ 0 := Nat.cast_ne_zero.mpr hgcd.ne'
  have hprod : (Int.lcm d₁ d₂ : ℤ) * Int.gcd d₁ d₂ = d₁ * d₂ := by
    rw [← Nat.cast_mul, Int.lcm_mul_gcd, ← Int.natAbs_mul,
      Int.natAbs_of_nonneg (mul_pos hd₁ hd₂).le]
  have hcop : IsCoprime e₁ e₂ := (Int.isCoprime_iff_gcd_eq_one.mpr hone).symm
  refine ⟨e₁, e₂, hcop, ?_, ?_, Dvd.intro _ h₂.symm, Dvd.intro _ h₁.symm⟩
  · apply mul_right_cancel₀ hg
    rw [hprod, mul_assoc, ← h₂]
  · apply mul_right_cancel₀ hg
    rw [hprod, mul_assoc, ← h₁, mul_comm]

/-- The common unit of two fractions in lowest terms is a whole combination of
them. -/
theorem exists_combination (h₁ : IsCoprime n₁ d₁) (h₂ : IsCoprime n₂ d₂)
    (hn₁ : n₁ ≠ 0) (hd₁ : 0 < d₁) (hd₂ : 0 < d₂) :
    ∃ a b : ℤ, ((Int.gcd n₁ n₂ : ℕ) : ℚ) / (Int.lcm d₁ d₂ : ℕ) =
      a * (n₁ / d₁) + b * (n₂ / d₂) := by
  obtain ⟨e₁, e₂, hcop, hlcm₁, hlcm₂, hdvd₁, hdvd₂⟩ := exists_lcm_cofactors hd₁ hd₂
  obtain ⟨m₁, m₂, hone, hm₁, hm₂⟩ :=
    Int.exists_gcd_one (Int.gcd_pos_of_ne_zero_left n₂ hn₁)
  -- Neither part of a numerator shares a factor with the other denominator.
  have hcross₁ : IsCoprime m₁ e₂ :=
    (h₁.of_isCoprime_of_dvd_left (Dvd.intro _ hm₁.symm)).of_isCoprime_of_dvd_right hdvd₂
  have hcross₂ : IsCoprime m₂ e₁ :=
    (h₂.of_isCoprime_of_dvd_left (Dvd.intro _ hm₂.symm)).of_isCoprime_of_dvd_right hdvd₁
  have hparts : IsCoprime (m₁ * e₁) (m₂ * e₂) :=
    ((Int.isCoprime_iff_gcd_eq_one.mpr hone).mul_right hcross₁).mul_left
      (hcross₂.symm.mul_right hcop)
  obtain ⟨a, b, hab⟩ := hparts
  have hsum : (Int.gcd n₁ n₂ : ℤ) = a * (n₁ * e₁) + b * (n₂ * e₂) := by
    calc (Int.gcd n₁ n₂ : ℤ)
        = (a * (m₁ * e₁) + b * (m₂ * e₂)) * Int.gcd n₁ n₂ := by rw [hab, one_mul]
      _ = a * (m₁ * Int.gcd n₁ n₂ * e₁) + b * (m₂ * Int.gcd n₁ n₂ * e₂) := by ring
      _ = a * (n₁ * e₁) + b * (n₂ * e₂) := by rw [← hm₁, ← hm₂]
  have hfraction {n d e : ℤ} (hd : 0 < d) (hlcm : (Int.lcm d₁ d₂ : ℤ) = d * e) :
      (n : ℚ) / d * (Int.lcm d₁ d₂ : ℕ) = n * e := by
    have hd' : (d : ℚ) ≠ 0 := Int.cast_ne_zero.mpr hd.ne'
    have hlcm' : ((Int.lcm d₁ d₂ : ℕ) : ℚ) = d * e := by exact_mod_cast hlcm
    rw [hlcm']
    field_simp
  have hlcm0 : ((Int.lcm d₁ d₂ : ℕ) : ℚ) ≠ 0 :=
    Nat.cast_ne_zero.mpr (Int.lcm_pos hd₁.ne' hd₂.ne').ne'
  refine ⟨a, b, ?_⟩
  rw [div_eq_iff hlcm0, add_mul, mul_assoc, mul_assoc, hfraction hd₁ hlcm₁,
    hfraction hd₂ hlcm₂]
  exact_mod_cast hsum

/-- Every unit of both fractions is a unit of the common one. -/
theorem isMultiple_common {unit : ℚ} (h₁ : IsCoprime n₁ d₁) (h₂ : IsCoprime n₂ d₂)
    (hn₁ : n₁ ≠ 0) (hd₁ : 0 < d₁) (hd₂ : 0 < d₂)
    (hunit₁ : IsMultiple (n₁ / d₁) unit) (hunit₂ : IsMultiple (n₂ / d₂) unit) :
    IsMultiple ((Int.gcd n₁ n₂ : ℕ) / (Int.lcm d₁ d₂ : ℕ)) unit := by
  obtain ⟨a, b, hab⟩ := exists_combination h₁ h₂ hn₁ hd₁ hd₂
  rw [hab]
  exact hunit₁.combine hunit₂ a b

end Libhipcxx.CommonUnit
