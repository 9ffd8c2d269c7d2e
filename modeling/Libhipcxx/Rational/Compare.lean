import Libhipcxx.Rational.Exact
import Libhipcxx.Support.Rounding
import Mathlib.Data.Rat.Floor

/-!
# Comparison of ratios

`ratio_less` never multiplies across.  Positive ratios are compared by their
integer parts, and by the reciprocals of what is left where these are equal:
the sense of the comparison turns around with each reciprocal.  The
denominators become smaller as in Euclid's algorithm.
-/

namespace Libhipcxx.Rational

open Rounding

/-! ## The templates -/

theorem ratio_den_le {Num Den : ℤ} {R : Ratio} (h : ratio Num Den = .ok R) :
    R.den ≤ |Den| := by
  obtain ⟨hnum, hden, hzero⟩ := members_range (ratio_eq_ok_iff.mp h)
  obtain ⟨num, den, hmembers, hcross, -, -, -, hcop⟩ := members_eq hnum hden hzero
  obtain ⟨-, rfl⟩ : R.num = num ∧ R.den = den := by
    rw [ratio_eq_ok_iff.mp h, Except.ok.injEq, Prod.mk.injEq] at hmembers
    exact hmembers
  have hdvd : R.den ∣ Den :=
    hcop.symm.dvd_of_dvd_mul_left (hcross ▸ Dvd.intro_left _ rfl)
  exact Int.le_of_dvd (abs_pos.mpr hzero) ((dvd_abs _ _).mpr hdvd)

/-- The next denominator in the recursion is a smaller one. -/
theorem ratio_tmod_den_lt {R S : Ratio}
    (h : ratio R.den (R.num.tmod R.den) = .ok S) : S.den.toNat < R.den.toNat := by
  have hpos := R.den_pos
  have hmod := Nat.mod_lt R.num.natAbs (Int.natAbs_pos.mpr hpos.ne')
  have hle := ratio_den_le h
  rw [Int.abs_eq_natAbs, Int.natAbs_tmod] at hle
  omega

/-- `__ratio_less1` with its four specialisations.  A remainder overflows where
the quotient does. -/
def ratioLess1 (R₁ R₂ : Ratio) (odd : Bool) : Except Failure Bool := do
  let Q₁ ← quotient R₁.num R₁.den
  let Q₂ ← quotient R₂.num R₂.den
  let M₁ := R₁.num.tmod R₁.den
  let M₂ := R₂.num.tmod R₂.den
  if Q₁ ≠ Q₂ then return if odd then Q₂ < Q₁ else Q₁ < Q₂
  else if M₁ = 0 ∧ M₂ = 0 then return false
  else if M₁ = 0 then return !odd
  else if M₂ = 0 then return odd
  else
    match _h : ratio R₁.den M₁, ratio R₂.den M₂ with
    | .ok S₁, .ok S₂ => ratioLess1 S₁ S₂ !odd
    | .error failure, _ => .error failure
    | _, .error failure => .error failure
termination_by R₁.den.toNat
decreasing_by exact ratio_tmod_den_lt ‹_›

/-- `__ratio_less`, with its two specialisations. -/
def ratioLess (R₁ R₂ : Ratio) : Except Failure Bool :=
  if staticSign R₁.num = 1 ∧ staticSign R₂.num = 1 then ratioLess1 R₁ R₂ false
  else if staticSign R₁.num = -1 ∧ staticSign R₂.num = -1 then do
    let left ← ratio (← intmax (-R₂.num)) R₂.den
    let right ← ratio (← intmax (-R₁.num)) R₁.den
    ratioLess1 left right false
  else return decide (staticSign R₁.num < staticSign R₂.num)

def ratioLessEqual (R₁ R₂ : Ratio) : Except Failure Bool := do
  return !(← ratioLess R₂ R₁)

def ratioGreater (R₁ R₂ : Ratio) : Except Failure Bool := ratioLess R₂ R₁

def ratioGreaterEqual (R₁ R₂ : Ratio) : Except Failure Bool := do
  return !(← ratioLess R₁ R₂)

def ratioEqual (R₁ R₂ : Ratio) : Bool := R₁.num = R₂.num && R₁.den = R₂.den

/-! ## The recursion -/

variable {R R₁ R₂ : Ratio}

/-- The quotient and the remainder of a positive ratio are its integer part
and what is left of the numerator. -/
theorem floor_value (h : 0 < R.num) :
    quotient R.num R.den = .ok ⌊R.value⌋ ∧
      Int.fract R.value = (R.num.tmod R.den : ℤ) / R.den := by
  have hvalue : 0 ≤ R.value := (R.num_pos_iff.mp h).le
  have hfloor : R.num.tdiv R.den = ⌊R.value⌋ := by
    rw [tdiv_eq_truncate ℚ _ R.den_pos]
    exact truncate_of_nonneg hvalue
  refine ⟨by rw [quotient_of_abs_le R.num_le, hfloor], ?_⟩
  rw [eq_div_iff R.cast_den_ne, Int.fract, sub_mul, Ratio.value,
    div_mul_cancel₀ _ R.cast_den_ne, ← Ratio.value, ← hfloor, Int.tmod_def]
  push_cast
  ring

theorem tmod_eq_zero_iff (h : 0 < R.num) :
    R.num.tmod R.den = 0 ↔ Int.fract R.value = 0 := by
  rw [(floor_value h).2, div_eq_zero_iff, Int.cast_eq_zero]
  exact (or_iff_left R.cast_den_ne).symm

/-- The ratio of the next step is the reciprocal of the fractional part. -/
theorem exists_reciprocal (h : 0 < R.num) (hmod : R.num.tmod R.den ≠ 0) :
    ∃ S, ratio R.den (R.num.tmod R.den) = .ok S ∧ 0 < S.num ∧
      S.value = (Int.fract R.value)⁻¹ := by
  have hmod_le := (abs_tmod_le R.num R.den).trans R.num_le
  obtain ⟨S, hS, hvalue⟩ := ratio_eq R.abs_den_le hmod_le hmod
  have hsame : S.value = (Int.fract R.value)⁻¹ := by
    rw [hvalue, (floor_value h).2, inv_div]
  refine ⟨S, hS, ?_, hsame⟩
  rw [S.num_pos_iff, hsame, inv_pos]
  exact lt_of_le_of_ne (Int.fract_nonneg _) (Ne.symm (mt (tmod_eq_zero_iff h).mpr hmod))

/-- The comparison whose sense `odd` turns around. -/
def Less (odd : Bool) (x y : ℚ) : Prop := if odd then y < x else x < y

instance (odd : Bool) (x y : ℚ) : Decidable (Less odd x y) :=
  inferInstanceAs (Decidable (if odd then y < x else x < y))

theorem Less.of_iff {odd : Bool} {x y u v : ℚ} (h : x < y ↔ u < v)
    (h' : y < x ↔ v < u) : Less odd x y ↔ Less odd u v := by
  cases odd with
  | false => exact h
  | true => exact h'

/-- Reciprocals turn the sense around. -/
theorem less_not {odd : Bool} {x y : ℚ} : Less (!odd) x y ↔ Less odd y x := by
  cases odd <;> rfl

theorem less_irrefl {odd : Bool} {x : ℚ} : ¬ Less odd x x := by
  cases odd with
  | false => exact lt_irrefl x
  | true => exact lt_irrefl x

theorem less_iff_not_odd {odd : Bool} {x y : ℚ} (h : x < y) : Less odd x y ↔ odd = false := by
  cases odd with
  | false => exact iff_of_true h rfl
  | true => exact iff_of_false (not_lt.mpr h.le) Bool.false_ne_true.symm

theorem less_iff_odd {odd : Bool} {x y : ℚ} (h : y < x) : Less odd x y ↔ odd = true := by
  cases odd with
  | false => exact iff_of_false (not_lt.mpr h.le) Bool.false_ne_true
  | true => exact iff_of_true h rfl

/-- Ratios with the same integer part compare as their fractional parts. -/
theorem less_iff_fract {odd : Bool} (hfloor : ⌊R₁.value⌋ = ⌊R₂.value⌋) :
    Less odd R₁.value R₂.value ↔ Less odd (Int.fract R₁.value) (Int.fract R₂.value) :=
  Less.of_iff (lt_iff_fract_lt hfloor) (lt_iff_fract_lt hfloor.symm)

/-- What the integer parts decide. -/
theorem ratioLess1_of_floor_ne (h₁ : 0 < R₁.num) (h₂ : 0 < R₂.num) (odd : Bool)
    (hfloor : ⌊R₁.value⌋ ≠ ⌊R₂.value⌋) :
    ratioLess1 R₁ R₂ odd = .ok (decide (Less odd R₁.value R₂.value)) := by
  rw [ratioLess1, (floor_value h₁).1, (floor_value h₂).1, ok_bind, ok_bind]
  dsimp only
  rw [if_pos hfloor]
  cases odd with
  | false =>
    simp only [Less, lt_iff_of_floor_ne hfloor]
    rfl
  | true =>
    simp only [Less, lt_iff_of_floor_ne (Ne.symm hfloor)]
    rfl

/-- What a remainder of zero decides. -/
theorem ratioLess1_of_whole (h₁ : 0 < R₁.num) (h₂ : 0 < R₂.num) (odd : Bool)
    (hfloor : ⌊R₁.value⌋ = ⌊R₂.value⌋)
    (hwhole : R₁.num.tmod R₁.den = 0 ∨ R₂.num.tmod R₂.den = 0) :
    ratioLess1 R₁ R₂ odd = .ok (decide (Less odd R₁.value R₂.value)) := by
  rw [ratioLess1, (floor_value h₁).1, (floor_value h₂).1, ok_bind, ok_bind]
  dsimp only
  rw [if_neg (not_not.mpr hfloor)]
  by_cases hM₁ : R₁.num.tmod R₁.den = 0
  · have hzero₁ := (tmod_eq_zero_iff h₁).mp hM₁
    by_cases hM₂ : R₂.num.tmod R₂.den = 0
    · have hzero₂ := (tmod_eq_zero_iff h₂).mp hM₂
      rw [if_pos ⟨hM₁, hM₂⟩, decide_eq_false]
      · rfl
      · rw [less_iff_fract hfloor, hzero₁, hzero₂]
        exact less_irrefl
    · have hne₂ := mt (tmod_eq_zero_iff h₂).mpr hM₂
      have hlt : Int.fract R₁.value < Int.fract R₂.value := by
        rw [hzero₁]
        exact lt_of_le_of_ne (Int.fract_nonneg R₂.value) (Ne.symm hne₂)
      rw [if_neg (fun h => hM₂ h.2), if_pos hM₁]
      simp only [less_iff_fract hfloor, less_iff_not_odd hlt]
      cases odd <;> rfl
  · have hM₂ := hwhole.resolve_left hM₁
    have hne₁ := mt (tmod_eq_zero_iff h₁).mpr hM₁
    have hlt : Int.fract R₂.value < Int.fract R₁.value := by
      rw [(tmod_eq_zero_iff h₂).mp hM₂]
      exact lt_of_le_of_ne (Int.fract_nonneg R₁.value) (Ne.symm hne₁)
    rw [if_neg (fun h => hM₁ h.1), if_neg hM₁, if_pos hM₂]
    simp only [less_iff_fract hfloor, less_iff_odd hlt]
    cases odd <;> rfl

/-- The other comparisons go to the reciprocals. -/
theorem ratioLess1_of_fractions (h₁ : 0 < R₁.num) (h₂ : 0 < R₂.num) (odd : Bool)
    (hfloor : ⌊R₁.value⌋ = ⌊R₂.value⌋) (hM₁ : R₁.num.tmod R₁.den ≠ 0)
    (hM₂ : R₂.num.tmod R₂.den ≠ 0)
    (hrec : ∀ S₁ S₂, ratio R₁.den (R₁.num.tmod R₁.den) = .ok S₁ →
      0 < S₁.num → 0 < S₂.num →
      ratioLess1 S₁ S₂ (!odd) = .ok (decide (Less (!odd) S₁.value S₂.value))) :
    ratioLess1 R₁ R₂ odd = .ok (decide (Less odd R₁.value R₂.value)) := by
  have hne₁ := mt (tmod_eq_zero_iff h₁).mpr hM₁
  have hne₂ := mt (tmod_eq_zero_iff h₂).mpr hM₂
  obtain ⟨S₁, hS₁, hnum₁, hvalue₁⟩ := exists_reciprocal h₁ hM₁
  obtain ⟨S₂, hS₂, hnum₂, hvalue₂⟩ := exists_reciprocal h₂ hM₂
  have hsame : Less (!odd) S₁.value S₂.value ↔ Less odd R₁.value R₂.value := by
    rw [less_not, hvalue₁, hvalue₂]
    exact (Less.of_iff (lt_iff_inv_fract_lt hfloor hne₁ hne₂)
      (lt_iff_inv_fract_lt hfloor.symm hne₂ hne₁)).symm
  have hdone := hrec S₁ S₂ hS₁ hnum₁ hnum₂
  simp only [hsame] at hdone
  rw [ratioLess1, (floor_value h₁).1, (floor_value h₂).1, ok_bind, ok_bind]
  dsimp only
  rw [if_neg (not_not.mpr hfloor), if_neg (fun h => hM₁ h.1), if_neg hM₁, if_neg hM₂]
  split
  · rename_i hS₁' hS₂'
    obtain rfl := Except.ok.inj (hS₁.symm.trans hS₁')
    obtain rfl := Except.ok.inj (hS₂.symm.trans hS₂')
    exact hdone
  · rename_i herror
    rw [hS₁] at herror
    cases herror
  · rename_i herror _
    rw [hS₂] at herror
    cases herror

/-- One level of the recursion. -/
theorem ratioLess1_step (h₁ : 0 < R₁.num) (h₂ : 0 < R₂.num) (odd : Bool)
    (hrec : ∀ S₁ S₂, ratio R₁.den (R₁.num.tmod R₁.den) = .ok S₁ →
      0 < S₁.num → 0 < S₂.num →
      ratioLess1 S₁ S₂ (!odd) = .ok (decide (Less (!odd) S₁.value S₂.value))) :
    ratioLess1 R₁ R₂ odd = .ok (decide (Less odd R₁.value R₂.value)) := by
  by_cases hfloor : ⌊R₁.value⌋ = ⌊R₂.value⌋
  · by_cases hwhole : R₁.num.tmod R₁.den = 0 ∨ R₂.num.tmod R₂.den = 0
    · exact ratioLess1_of_whole h₁ h₂ odd hfloor hwhole
    · obtain ⟨hM₁, hM₂⟩ := not_or.mp hwhole
      exact ratioLess1_of_fractions h₁ h₂ odd hfloor hM₁ hM₂ hrec
  · exact ratioLess1_of_floor_ne h₁ h₂ odd hfloor

/-- The recursion ends with the comparison of the values. -/
theorem ratioLess1_eq (h₁ : 0 < R₁.num) (h₂ : 0 < R₂.num) (odd : Bool) :
    ratioLess1 R₁ R₂ odd = .ok (decide (Less odd R₁.value R₂.value)) := by
  induction hn : R₁.den.toNat using Nat.strong_induction_on generalizing R₁ R₂ odd with
  | _ n ih =>
    apply ratioLess1_step h₁ h₂
    intro S₁ S₂ hS₁ hnum₁ hnum₂
    have hlt := ratio_tmod_den_lt hS₁
    rw [hn] at hlt
    exact ih S₁.den.toNat hlt hnum₁ hnum₂ _ rfl

/-! ## The order -/

theorem Ratio.lt_iff (R₁ R₂ : Ratio) :
    R₁.value < R₂.value ↔ R₁.num * R₂.den < R₂.num * R₁.den := by
  rw [Ratio.value, Ratio.value, div_lt_div_iff₀ R₁.cast_den_pos R₂.cast_den_pos]
  norm_cast

theorem staticSign_eq (x : ℤ) : staticSign x = x.sign := by
  rw [staticSign]
  split
  · rename_i hzero
    rw [hzero, Int.sign_zero]
  · rename_i hzero
    split
    · rename_i hneg
      exact (Int.sign_eq_neg_one_of_neg hneg).symm
    · rename_i hneg
      exact (Int.sign_eq_one_of_pos (lt_of_le_of_ne (not_lt.mp hneg) (Ne.symm hzero))).symm

/-- The negation of a ratio, as the specialisation for two negative ratios
instantiates it. -/
theorem exists_negation (R : Ratio) :
    ∃ S, intmax (-R.num) = .ok (-R.num) ∧ ratio (-R.num) R.den = .ok S ∧
      S.value = -R.value := by
  have hle : |-R.num| ≤ max := (abs_neg R.num).trans_le R.num_le
  obtain ⟨S, hS, hvalue⟩ := ratio_eq hle R.abs_den_le R.den_pos.ne'
  refine ⟨S, intmax_of_abs_le hle, hS, ?_⟩
  rw [hvalue, Ratio.value, Int.cast_neg, neg_div]

/-- Ratios that are not both positive and not both negative are in the order of
their signs. -/
theorem Ratio.num_neg_iff (R : Ratio) : R.num < 0 ↔ R.value < 0 := by
  rw [← R.num_value, Rat.num_neg]

theorem sign_lt_iff (hpos : ¬ (0 < R₁.num ∧ 0 < R₂.num))
    (hneg : ¬ (R₁.num < 0 ∧ R₂.num < 0)) :
    R₁.num.sign < R₂.num.sign ↔ R₁.value < R₂.value := by
  rw [R₁.lt_iff]
  have hden₁ := R₁.den_pos
  have hden₂ := R₂.den_pos
  rcases lt_trichotomy R₁.num 0 with h₁ | h₁ | h₁
  · have h₂ : 0 ≤ R₂.num := not_lt.mp fun h => hneg ⟨h₁, h⟩
    rw [Int.sign_eq_neg_one_of_neg h₁]
    apply iff_of_true
    · exact lt_of_lt_of_le neg_one_lt_zero (Int.sign_nonneg_iff.mpr h₂)
    · exact lt_of_lt_of_le (mul_neg_of_neg_of_pos h₁ hden₂) (mul_nonneg h₂ hden₁.le)
  · rw [h₁, Int.sign_zero, zero_mul, mul_pos_iff_of_pos_right hden₁, Int.sign_pos_iff]
  · have h₂ : R₂.num ≤ 0 := not_lt.mp fun h => hpos ⟨h₁, h⟩
    rw [Int.sign_eq_one_of_pos h₁]
    apply iff_of_false
    · have hsign := Int.sign_nonpos_iff.mpr h₂
      omega
    · exact not_lt.mpr ((mul_nonpos_of_nonpos_of_nonneg h₂ hden₁.le).trans
        (mul_pos h₁ hden₂).le)

/-- `ratio_less` compares the values. -/
theorem ratioLess_eq (R₁ R₂ : Ratio) :
    ratioLess R₁ R₂ = .ok (decide (R₁.num * R₂.den < R₂.num * R₁.den)) := by
  rw [ratioLess]
  simp only [staticSign_eq, Int.sign_eq_one_iff_pos, Int.sign_eq_neg_one_iff_neg,
    ← R₁.lt_iff]
  split
  · rename_i hpos
    exact ratioLess1_eq hpos.1 hpos.2 false
  · rename_i hpos
    split
    · rename_i hneg
      obtain ⟨left, hneg₂, hleft, hvalue₂⟩ := exists_negation R₂
      obtain ⟨right, hneg₁, hright, hvalue₁⟩ := exists_negation R₁
      have hnum₂ : 0 < left.num := by
        rw [left.num_pos_iff, hvalue₂, neg_pos, ← R₂.num_neg_iff]
        exact hneg.2
      have hnum₁ : 0 < right.num := by
        rw [right.num_pos_iff, hvalue₁, neg_pos, ← R₁.num_neg_iff]
        exact hneg.1
      have hless := ratioLess1_eq hnum₂ hnum₁ false
      have hturn : Less false left.value right.value ↔ R₁.value < R₂.value := by
        rw [hvalue₂, hvalue₁]
        exact neg_lt_neg_iff
      simp only [hturn] at hless
      simp only [hneg₁, hneg₂, ok_bind, hleft, hright]
      exact hless
    · rename_i hneg
      simp only [sign_lt_iff hpos hneg]
      rfl

theorem Ratio.le_iff (R₁ R₂ : Ratio) :
    R₁.value ≤ R₂.value ↔ R₁.num * R₂.den ≤ R₂.num * R₁.den := by
  rw [← not_lt, R₂.lt_iff, not_lt]

theorem ratioEqual_iff (R₁ R₂ : Ratio) : ratioEqual R₁ R₂ = true ↔ R₁ = R₂ := by
  rw [ratioEqual, Bool.and_eq_true, decide_eq_true_iff, decide_eq_true_iff, Ratio.ext_iff]

/-- The value that parameters of either sign stand for. -/
theorem ratio_value {Num Den : ℤ} {R : Ratio} (h : ratio Num Den = .ok R) :
    Den ≠ 0 ∧ R.value = Num / Den := by
  obtain ⟨hnum, hden, hzero⟩ := members_range (ratio_eq_ok_iff.mp h)
  obtain ⟨R', hR', hvalue⟩ := ratio_eq hnum hden hzero
  obtain rfl := Except.ok.inj (hR'.symm.trans h)
  exact ⟨hzero, hvalue⟩

theorem ratioLessEqual_eq (R₁ R₂ : Ratio) :
    ratioLessEqual R₁ R₂ = .ok (decide (R₁.num * R₂.den ≤ R₂.num * R₁.den)) := by
  rw [ratioLessEqual, ratioLess_eq, ok_bind, ← decide_not]
  simp only [not_lt]
  rfl

theorem ok_decide_iff {p : Prop} [Decidable p] :
    (Except.ok (decide p) : Except Failure Bool) = .ok true ↔ p := by
  rw [Except.ok.injEq, decide_eq_true_iff]

/-- The parameters in place of the terms. -/
theorem ratioLess_parameters {n₁ d₁ n₂ d₂ : ℤ} (h₁ : ratio n₁ d₁ = .ok R₁)
    (h₂ : ratio n₂ d₂ = .ok R₂) :
    (ratioLess R₁ R₂ = .ok true ↔ (n₁ / d₁ : ℚ) < n₂ / d₂) ∧
      (0 < d₁ * d₂ → (ratioLess R₁ R₂ = .ok true ↔ n₁ * d₂ < n₂ * d₁)) := by
  obtain ⟨hzero₁, hvalue₁⟩ := ratio_value h₁
  obtain ⟨hzero₂, hvalue₂⟩ := ratio_value h₂
  rw [ratioLess_eq, ok_decide_iff, ← R₁.lt_iff, hvalue₁, hvalue₂]
  refine ⟨Iff.rfl, ?_⟩
  intro hpos
  have hcast : (0 : ℚ) < d₁ * d₂ := by exact_mod_cast hpos
  have hne₁ : (d₁ : ℚ) ≠ 0 := Int.cast_ne_zero.mpr hzero₁
  have hne₂ : (d₂ : ℚ) ≠ 0 := Int.cast_ne_zero.mpr hzero₂
  have hleft : (n₁ / d₁ : ℚ) * (d₁ * d₂) = n₁ * d₂ := by
    rw [← mul_assoc, div_mul_cancel₀ _ hne₁]
  have hright : (n₂ / d₂ : ℚ) * (d₁ * d₂) = n₂ * d₁ := by
    rw [mul_comm (d₁ : ℚ), ← mul_assoc, div_mul_cancel₀ _ hne₂]
  rw [← mul_lt_mul_iff_left₀ hcast, hleft, hright]
  norm_cast

/-- The comparisons are those of the values. -/
theorem ratio_order_iff (R₁ R₂ : Ratio) :
    (ratioLess R₁ R₂ = .ok true ↔ R₁.value < R₂.value) ∧
      (ratioLessEqual R₁ R₂ = .ok true ↔ R₁.value ≤ R₂.value) ∧
      (ratioGreater R₁ R₂ = .ok true ↔ R₂.value < R₁.value) ∧
      (ratioGreaterEqual R₁ R₂ = .ok true ↔ R₂.value ≤ R₁.value) ∧
      (ratioEqual R₁ R₂ = true ↔ R₁ = R₂) := by
  refine ⟨?_, ?_, ?_, ?_, ratioEqual_iff R₁ R₂⟩
  · rw [ratioLess_eq, ok_decide_iff, R₁.lt_iff]
  · rw [ratioLessEqual_eq, ok_decide_iff, R₁.le_iff]
  · rw [ratioGreater, ratioLess_eq, ok_decide_iff, R₂.lt_iff]
  · have hsame : ratioGreaterEqual R₁ R₂ = ratioLessEqual R₂ R₁ := rfl
    rw [hsame, ratioLessEqual_eq, ok_decide_iff, R₂.le_iff]

/-- Every comparison of two ratios has a result: the recursion ends, nothing
overflows and no denominator is zero.  The result is that of the products of
the terms, and the comparisons are those of one total order. -/
theorem ratio_comparisons :
    (∀ R₁ R₂ : Ratio,
      ratioLess R₁ R₂ = .ok (decide (R₁.num * R₂.den < R₂.num * R₁.den)) ∧
      ratioLessEqual R₁ R₂ = .ok (decide (R₁.num * R₂.den ≤ R₂.num * R₁.den)) ∧
      ratioGreater R₁ R₂ = .ok (decide (R₂.num * R₁.den < R₁.num * R₂.den)) ∧
      ratioGreaterEqual R₁ R₂ = .ok (decide (R₂.num * R₁.den ≤ R₁.num * R₂.den))) ∧
    (∀ (R₁ R₂ : Ratio) (n₁ d₁ n₂ d₂ : ℤ), ratio n₁ d₁ = .ok R₁ → ratio n₂ d₂ = .ok R₂ →
      (ratioLess R₁ R₂ = .ok true ↔ (n₁ / d₁ : ℚ) < n₂ / d₂) ∧
      (0 < d₁ * d₂ → (ratioLess R₁ R₂ = .ok true ↔ n₁ * d₂ < n₂ * d₁))) ∧
    ∃ order : LinearOrder Ratio, ∀ R₁ R₂,
      (ratioLess R₁ R₂ = .ok true ↔ order.lt R₁ R₂) ∧
      (ratioLessEqual R₁ R₂ = .ok true ↔ order.le R₁ R₂) ∧
      (ratioGreater R₁ R₂ = .ok true ↔ order.lt R₂ R₁) ∧
      (ratioGreaterEqual R₁ R₂ = .ok true ↔ order.le R₂ R₁) ∧
      (ratioEqual R₁ R₂ = true ↔ R₁ = R₂) := by
  refine ⟨?_, ?_, LinearOrder.lift' Ratio.value fun _ _ => Ratio.value_injective, ?_⟩
  · intro R₁ R₂
    exact ⟨ratioLess_eq R₁ R₂, ratioLessEqual_eq R₁ R₂, ratioLess_eq R₂ R₁,
      ratioLessEqual_eq R₂ R₁⟩
  · intro R₁ R₂ n₁ d₁ n₂ d₂ h₁ h₂
    exact ratioLess_parameters h₁ h₂
  · intro R₁ R₂
    exact ratio_order_iff R₁ R₂

/-- Terms at the end of the range, whose products are far out of it. -/
theorem ratio_comparisons_max :
    ∃ R₁ R₂ : Ratio, ratio max (max - 1) = .ok R₁ ∧ ratio (max - 1) (max - 2) = .ok R₂ ∧
      ratioLess R₁ R₂ = .ok true := by
  obtain ⟨R₁, h₁, -⟩ := ratio_eq (by decide : |max| ≤ max) (by decide : |max - 1| ≤ max)
    (by decide)
  obtain ⟨R₂, h₂, -⟩ := ratio_eq (by decide : |max - 1| ≤ max) (by decide : |max - 2| ≤ max)
    (by decide)
  have hless := (ratio_comparisons.2.1 R₁ R₂ _ _ _ _ h₁ h₂).2 (by decide)
  exact ⟨R₁, R₂, h₁, h₂, hless.mpr (by decide)⟩

end Libhipcxx.Rational
