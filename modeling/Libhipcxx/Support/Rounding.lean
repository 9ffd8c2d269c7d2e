import Mathlib.Algebra.Order.Floor.Ring
import Mathlib.Tactic.Linarith

/-!
# Rounding to integers

Division of integers that rounds towards zero, and how the floor and the
ceiling are found from it by one comparison.  The nearest integer is the floor
or the one after it; the even one of the two where both are as near.
-/

namespace Libhipcxx.Rounding

variable {K : Type*} [Field K] [LinearOrder K] [IsStrictOrderedRing K] [FloorRing K]
  {q : K} {n : ℤ}

/-! ## Towards zero -/

/-- The integer part of a number. -/
def truncate (q : K) : ℤ := if 0 ≤ q then ⌊q⌋ else ⌈q⌉

omit [IsStrictOrderedRing K] in
theorem truncate_of_nonneg (h : 0 ≤ q) : truncate q = ⌊q⌋ := if_pos h

theorem truncate_of_nonpos (h : q ≤ 0) : truncate q = ⌈q⌉ := by
  rcases h.lt_or_eq with hneg | rfl
  · exact if_neg (not_le.mpr hneg)
  · rw [truncate_of_nonneg le_rfl, Int.floor_zero, Int.ceil_zero]

theorem truncate_neg (q : K) : truncate (-q) = -truncate q := by
  rcases le_total 0 q with hpos | hneg
  · rw [truncate_of_nonpos (neg_nonpos.mpr hpos), truncate_of_nonneg hpos, Int.ceil_neg]
  · rw [truncate_of_nonneg (neg_nonneg.mpr hneg), truncate_of_nonpos hneg, Int.floor_neg]

theorem truncate_abs (q : K) : truncate |q| = |truncate q| := by
  rcases le_total 0 q with hpos | hneg
  · have hfloor : 0 ≤ ⌊q⌋ := Int.floor_nonneg.mpr hpos
    rw [abs_of_nonneg hpos, truncate_of_nonneg hpos, abs_of_nonneg hfloor]
  · have hceil : ⌈q⌉ ≤ 0 := Int.ceil_le.mpr (by rwa [Int.cast_zero])
    rw [abs_of_nonpos hneg, truncate_neg, truncate_of_nonpos hneg, abs_of_nonpos hceil]

theorem truncate_intCast (n : ℤ) : truncate (n : K) = n := by
  rcases le_total 0 (n : K) with hpos | hneg
  · rw [truncate_of_nonneg hpos, Int.floor_intCast]
  · rw [truncate_of_nonpos hneg, Int.ceil_intCast]

/-- Division of integers truncates the quotient. -/
theorem tdiv_eq_truncate (K : Type*) [Field K] [LinearOrder K] [IsStrictOrderedRing K]
    [FloorRing K] (a : ℤ) {b : ℤ} (hb : 0 < b) : a.tdiv b = truncate (a / b : K) := by
  have hfloor (a : ℤ) : ⌊(a / b : K)⌋ = a / b := by
    rw [Int.floor_div_cast_of_nonneg hb.le, Int.floor_intCast]
  have hbpos : (0 : K) < b := Int.cast_pos.mpr hb
  rcases le_total 0 a with hpos | hneg
  · have hquotient : (0 : K) ≤ a / b := div_nonneg (Int.cast_nonneg hpos) hbpos.le
    rw [truncate_of_nonneg hquotient, hfloor, Int.tdiv_eq_ediv_of_nonneg hpos]
  · have hquotient : (a / b : K) ≤ 0 :=
      div_nonpos_of_nonpos_of_nonneg (Int.cast_nonpos.mpr hneg) hbpos.le
    rw [truncate_of_nonpos hquotient, ← neg_neg (a / b : K), Int.ceil_neg, ← neg_div,
      ← Int.cast_neg, hfloor, ← Int.tdiv_eq_ediv_of_nonneg (neg_nonneg.mpr hneg),
      Int.neg_tdiv, neg_neg]

/-- The floor, where the integer part may be one too many. -/
theorem floor_eq_truncate (q : K) :
    ⌊q⌋ = if q < truncate q then truncate q - 1 else truncate q := by
  rcases le_total 0 q with hpos | hneg
  · rw [truncate_of_nonneg hpos, if_neg (not_lt.mpr (Int.floor_le q))]
  · rw [truncate_of_nonpos hneg]
    split
    · rename_i hlt
      have hprev := Int.ceil_lt_add_one q
      rw [Int.floor_eq_iff]
      push_cast
      constructor <;> linarith
    · rename_i hle
      have heq := le_antisymm (Int.le_ceil q) (not_lt.mp hle)
      rw [Int.floor_eq_iff]
      constructor <;> linarith

/-- The ceiling, where the integer part may be one too few. -/
theorem ceil_eq_truncate (q : K) :
    ⌈q⌉ = if (truncate q : K) < q then truncate q + 1 else truncate q := by
  have h := floor_eq_truncate (-q)
  rw [Int.floor_neg, truncate_neg] at h
  push_cast at h
  simp only [neg_lt_neg_iff] at h
  split at h
  · rename_i hlt
    rw [if_pos hlt]
    omega
  · rename_i hle
    rw [if_neg hle]
    omega

/-! ## To the nearest -/

/-- No integer is nearer, and the integer is even if another one is as near. -/
def IsNearest (q : K) (n : ℤ) : Prop :=
  (∀ k : ℤ, |q - n| ≤ |q - k|) ∧ ∀ k : ℤ, k ≠ n → |q - k| = |q - n| → Even n

theorem one_le_sum_of_ne (q : K) {k : ℤ} (h : k ≠ n) : 1 ≤ |q - n| + |q - k| := by
  have hint : (1 : ℤ) ≤ |k - n| := Int.one_le_abs (sub_ne_zero.mpr h)
  have hcast : (1 : K) ≤ |(k : K) - n| := by exact_mod_cast hint
  have htriangle := abs_sub_le (k : K) q n
  rw [abs_sub_comm (k : K) q] at htriangle
  linarith

theorem isNearest_of_lt (h : 2 * |q - n| < 1) : IsNearest q n := by
  constructor
  · intro k
    by_cases hk : k = n
    · rw [hk]
    · have hsum := one_le_sum_of_ne q hk
      linarith
  · intro k hk heq
    have hsum := one_le_sum_of_ne q hk
    linarith

theorem isNearest_of_even (h : 2 * |q - n| = 1) (heven : Even n) : IsNearest q n := by
  refine ⟨?_, fun _ _ _ => heven⟩
  intro k
  by_cases hk : k = n
  · rw [hk]
  · have hsum := one_le_sum_of_ne q hk
    linarith

theorem isNearest_floor (h : q - ⌊q⌋ < ⌊q⌋ + 1 - q) : IsNearest q ⌊q⌋ := by
  apply isNearest_of_lt
  rw [abs_of_nonneg (sub_nonneg.mpr (Int.floor_le q))]
  linarith

theorem isNearest_floor_add_one (h : ⌊q⌋ + 1 - q < q - ⌊q⌋) :
    IsNearest q (⌊q⌋ + 1) := by
  apply isNearest_of_lt
  have hlt := Int.lt_floor_add_one q
  push_cast
  rw [abs_of_nonpos (by linarith)]
  linarith

/-- Half-way between two integers, the even one. -/
theorem isNearest_half (h : q - ⌊q⌋ = ⌊q⌋ + 1 - q) :
    IsNearest q (if Odd ⌊q⌋ then ⌊q⌋ + 1 else ⌊q⌋) := by
  split
  · rename_i hodd
    apply isNearest_of_even _ hodd.add_one
    push_cast
    rw [abs_of_nonpos (by linarith)]
    linarith
  · rename_i heven
    apply isNearest_of_even _ (Int.not_odd_iff_even.mp heven)
    rw [abs_of_nonneg (sub_nonneg.mpr (Int.floor_le q))]
    linarith

/-! ## Comparison by integer parts -/

variable {x y : K}

omit [IsStrictOrderedRing K] in
/-- Numbers with different floors are in the order of their floors. -/
theorem lt_iff_of_floor_ne (h : ⌊x⌋ ≠ ⌊y⌋) : x < y ↔ ⌊x⌋ < ⌊y⌋ := by
  constructor
  · intro hlt
    exact lt_of_le_of_ne (Int.floor_mono hlt.le) h
  · intro hlt
    by_contra hle
    exact not_le.mpr hlt (Int.floor_mono (not_lt.mp hle))

theorem lt_iff_fract_lt (h : ⌊x⌋ = ⌊y⌋) : x < y ↔ Int.fract x < Int.fract y := by
  rw [Int.fract, Int.fract, h, sub_lt_sub_iff_right]

/-- Numbers with the same floor are in the reverse order of what their
fractional parts are the reciprocals of. -/
theorem lt_iff_inv_fract_lt (h : ⌊x⌋ = ⌊y⌋) (hx : Int.fract x ≠ 0)
    (hy : Int.fract y ≠ 0) : x < y ↔ (Int.fract y)⁻¹ < (Int.fract x)⁻¹ := by
  have hx' : 0 < Int.fract x := lt_of_le_of_ne (Int.fract_nonneg x) hx.symm
  have hy' : 0 < Int.fract y := lt_of_le_of_ne (Int.fract_nonneg y) hy.symm
  rw [lt_iff_fract_lt h, inv_lt_inv₀ hy' hx']

end Libhipcxx.Rounding
