import Mathlib.Algebra.Order.Ring.Int
import Mathlib.Data.Int.ModEq
import Mathlib.Data.Int.Notation
import Mathlib.Tactic.Ring

/-!
# Integer types of C++

A type is a width and a signedness.  Conversion is the value modulo two to the
width; arithmetic wraps around where the type is unsigned and has no result
where a signed operation overflows.  Operands of different types are brought
to a common type, which keeps every value that is not negative.
-/

namespace Libhipcxx

structure IntegerType where
  signed : Bool
  width : ℕ
  width_ge : 8 ≤ width
  deriving DecidableEq

namespace IntegerType

def min (T : IntegerType) : ℤ := if T.signed then -2 ^ (T.width - 1) else 0

def max (T : IntegerType) : ℤ :=
  if T.signed then 2 ^ (T.width - 1) - 1 else 2 ^ T.width - 1

/-- The value is representable. -/
def Fits (T : IntegerType) (x : ℤ) : Prop := T.min ≤ x ∧ x ≤ T.max

instance (T : IntegerType) (x : ℤ) : Decidable (T.Fits x) :=
  inferInstanceAs (Decidable (_ ∧ _))

/-- Conversion to the type. -/
def convert (T : IntegerType) (x : ℤ) : ℤ :=
  if T.signed then x.bmod (2 ^ T.width) else x % 2 ^ T.width

/-- The result of an operation in the type. -/
def arith (T : IntegerType) (x : ℤ) : Option ℤ :=
  if T.signed then (if T.Fits x then some x else none) else some (T.convert x)

def int : IntegerType := ⟨true, 32, by decide⟩

/-- `size_t`. -/
def size : IntegerType := ⟨false, 64, by decide⟩

def promote (T : IntegerType) : IntegerType := if T.width < 32 then int else T

/-- The usual arithmetic conversions of promoted types: the wider one, but a
signed type only over an unsigned one that is narrower. -/
def wider (T U : IntegerType) : IntegerType :=
  if T.signed = U.signed then (if T.width < U.width then U else T)
  else if T.signed then (if U.width < T.width then T else U)
  else (if T.width < U.width then U else T)

def common (T U : IntegerType) : IntegerType := T.promote.wider U.promote

/-! ## Conversion -/

variable {T U : IntegerType} {x y : ℤ}

theorem two_pow_width (T : IntegerType) :
    (2 : ℤ) ^ T.width = 2 * 2 ^ (T.width - 1) := by
  have := T.width_ge
  rw [← pow_succ', Nat.sub_add_cancel (by omega)]

theorem half_pos (T : IntegerType) : (0 : ℤ) < 2 ^ (T.width - 1) :=
  pow_pos (by decide) _

theorem fits_convert (T : IntegerType) (x : ℤ) : T.Fits (T.convert x) := by
  have hwidth := T.two_pow_width
  have hhalf := T.half_pos
  rw [Fits, convert, min, max]
  split
  · have hpos : 0 < 2 ^ T.width := Nat.two_pow_pos _
    have hlo := Int.le_bmod (x := x) hpos
    have hhi := Int.bmod_lt (x := x) hpos
    push_cast at hlo hhi
    omega
  · have hlo := Int.emod_nonneg x (show (2 : ℤ) ^ T.width ≠ 0 by omega)
    have hhi := Int.emod_lt_of_pos x (show (0 : ℤ) < 2 ^ T.width by omega)
    omega

theorem convert_of_fits (h : T.Fits x) : T.convert x = x := by
  have hwidth := T.two_pow_width
  rw [Fits, min, max] at h
  rw [convert]
  split
  · rename_i hsigned
    rw [if_pos hsigned, if_pos hsigned] at h
    refine Int.bmod_eq_of_le_mul_two ?_ ?_
    · push_cast
      omega
    · push_cast
      omega
  · rename_i hunsigned
    rw [if_neg hunsigned, if_neg hunsigned] at h
    exact Int.emod_eq_of_lt h.1 (by omega)

theorem convert_emod (T : IntegerType) (x : ℤ) :
    T.convert x % 2 ^ T.width = x % 2 ^ T.width := by
  rw [convert]
  split
  · have h := @Int.bmod_emod x (2 ^ T.width)
    push_cast at h
    exact h
  · exact Int.emod_emod_of_dvd x (dvd_refl _)

/-- A conversion depends on the value modulo two to the width. -/
theorem convert_congr (h : x % 2 ^ T.width = y % 2 ^ T.width) :
    T.convert x = T.convert y := by
  rw [convert, convert]
  split
  · rw [← Int.emod_bmod x, ← Int.emod_bmod y]
    push_cast
    rw [h]
  · exact h

/-- A conversion over a type that is not narrower changes nothing. -/
theorem convert_convert (h : T.width ≤ U.width) :
    T.convert (U.convert x) = T.convert x := by
  refine convert_congr ?_
  have hdvd : (2 : ℤ) ^ T.width ∣ 2 ^ U.width := pow_dvd_pow 2 h
  rw [← Int.emod_emod_of_dvd (U.convert x) hdvd, convert_emod,
    Int.emod_emod_of_dvd x hdvd]

theorem fits_zero (T : IntegerType) : T.Fits 0 := by
  have hwidth := T.two_pow_width
  have hhalf := T.half_pos
  rw [Fits, min, max]
  split <;> omega

theorem fits_one (T : IntegerType) : T.Fits 1 := by
  have hwidth := T.two_pow_width
  have htwo : (2 : ℤ) ^ 1 ≤ 2 ^ (T.width - 1) :=
    pow_le_pow_right₀ (by decide) (by have := T.width_ge; omega)
  rw [Fits, min, max]
  split <;> omega

theorem arith_of_fits (h : T.Fits x) : T.arith x = some x := by
  rw [arith, if_pos h, convert_of_fits h, ite_self]

/-- A product of converted operands is the converted product, if in a signed
type nothing is out of range. -/
theorem arith_mul_convert
    (h : T.signed = true → T.Fits x ∧ T.Fits y ∧ T.Fits (x * y)) :
    T.arith (T.convert x * T.convert y) = some (T.convert (x * y)) := by
  by_cases hsigned : T.signed = true
  · obtain ⟨hx, hy, hproduct⟩ := h hsigned
    rw [convert_of_fits hx, convert_of_fits hy, arith_of_fits hproduct,
      convert_of_fits hproduct]
  · rw [arith, if_neg hsigned]
    refine congrArg some (convert_congr ?_)
    rw [Int.mul_emod, convert_emod, convert_emod, ← Int.mul_emod]

/-! ## Types that keep the values of others -/

theorem min_nonpos (T : IntegerType) : T.min ≤ 0 := T.fits_zero.1

/-- The range above zero grows with the width, and with the sign bit. -/
theorem max_mono
    (h : T.width < U.width ∨
      (T.width ≤ U.width ∧ (U.signed = true → T.signed = true))) :
    T.max ≤ U.max := by
  have hT := T.two_pow_width
  have hU := U.two_pow_width
  have hThalf := T.half_pos
  have hUhalf := U.half_pos
  have hle : (2 : ℤ) ^ T.width ≤ 2 ^ U.width :=
    pow_le_pow_right₀ (by decide) (by omega)
  rw [max, max]
  rcases h with hlt | ⟨hwidth, hsigned⟩
  · have hlt' : (2 : ℤ) ^ T.width ≤ 2 ^ (U.width - 1) :=
      pow_le_pow_right₀ (by decide) (by omega)
    split <;> split <;> omega
  · split
    · split <;> omega
    · rename_i hunsigned
      rw [if_neg (mt hsigned hunsigned)]
      omega

/-- A signed type keeps the values of a narrower one. -/
theorem fits_of_width_le (hT : T.signed = true) (hU : U.signed = true)
    (hle : T.width ≤ U.width) (h : T.Fits x) : U.Fits x := by
  refine ⟨le_trans ?_ h.1, h.2.trans (max_mono (Or.inr ⟨hle, fun _ => hT⟩))⟩
  rw [min, min, if_pos hT, if_pos hU]
  exact neg_le_neg (pow_le_pow_right₀ (by decide) (by omega))

theorem max_le_promote (T : IntegerType) : T.max ≤ T.promote.max := by
  rw [promote]
  split
  · rename_i h
    exact max_mono (Or.inl h)
  · exact le_refl _

theorem max_le_wider_left (T U : IntegerType) : T.max ≤ (T.wider U).max := by
  rw [wider]
  split
  · rename_i hsame
    split
    · rename_i hlt
      exact max_mono (Or.inl hlt)
    · exact le_refl _
  · split
    · split
      · exact le_refl _
      · rename_i hsigned hle
        exact max_mono (Or.inr ⟨by omega, fun _ => hsigned⟩)
    · split
      · rename_i hlt
        exact max_mono (Or.inl hlt)
      · exact le_refl _

theorem max_le_wider_right (T U : IntegerType) : U.max ≤ (T.wider U).max := by
  rw [wider]
  split
  · rename_i hsame
    split
    · exact le_refl _
    · rename_i hle
      exact max_mono (Or.inr ⟨by omega, fun h => hsame ▸ h⟩)
  · rename_i hdiff
    split
    · split
      · rename_i hlt
        exact max_mono (Or.inl hlt)
      · exact le_refl _
    · rename_i hunsigned
      split
      · exact le_refl _
      · rename_i hle
        exact max_mono (Or.inr ⟨by omega, fun h => absurd h hunsigned⟩)

/-- The common type keeps every value that is not negative. -/
theorem fits_common_left (U : IntegerType) (hx : T.Fits x) (hpos : 0 ≤ x) :
    (T.common U).Fits x :=
  ⟨(min_nonpos _).trans hpos,
    hx.2.trans (T.max_le_promote.trans (max_le_wider_left _ _))⟩

theorem fits_common_right (T : IntegerType) (hx : U.Fits x) (hpos : 0 ≤ x) :
    (T.common U).Fits x :=
  ⟨(min_nonpos _).trans hpos,
    hx.2.trans (U.max_le_promote.trans (max_le_wider_right _ _))⟩

theorem common_self (T : IntegerType) : T.common T = T.promote := by
  rw [common, wider, if_pos rfl, if_neg (lt_irrefl _)]

theorem width_le_promote (T : IntegerType) : T.width ≤ T.promote.width := by
  rw [promote]
  split
  · rename_i hlt
    exact hlt.le
  · exact le_refl _

theorem width_le_common_right (T U : IntegerType) :
    U.width ≤ (T.common U).width := by
  refine U.width_le_promote.trans ?_
  rw [common, wider]
  split <;> split <;> try split
  all_goals omega

/-- Promotion keeps every value. -/
theorem fits_promote (hx : T.Fits x) : T.promote.Fits x := by
  rw [promote]
  split
  · rename_i hlt
    by_cases hsigned : T.signed = true
    · exact fits_of_width_le hsigned rfl (by simp only [int]; omega) hx
    · have hpos : 0 ≤ x := by
        have hmin := hx.1
        rwa [min, if_neg hsigned] at hmin
      exact ⟨(min_nonpos _).trans hpos, hx.2.trans (max_mono (Or.inl hlt))⟩
  · exact hx

/-! ## Operations that have a result -/

/-- An operation in the type has a result. -/
def Computes (T : IntegerType) (x : ℤ) : Prop := T.signed = true → T.Fits x

theorem computes_of_fits (h : T.Fits x) : T.Computes x := fun _ => h

theorem arith_eq_some_iff : T.arith x = some y ↔ T.Computes x ∧ y = T.convert x := by
  rw [arith, Computes]
  split
  · rename_i hsigned
    split
    · rename_i hfits
      rw [Option.some_inj, convert_of_fits hfits]
      exact ⟨fun h => ⟨fun _ => hfits, h.symm⟩, fun h => h.2.symm⟩
    · rename_i hfits
      exact ⟨nofun, fun h => absurd (h.1 hsigned) hfits⟩
  · rename_i hunsigned
    rw [Option.some_inj]
    exact ⟨fun h => ⟨fun hsigned => absurd hsigned hunsigned, h.symm⟩, fun h => h.2.symm⟩

/-- Nothing overflows in an unsigned type. -/
theorem exists_arith (hT : T.signed = false) (x : ℤ) : ∃ y, T.arith x = some y := by
  refine ⟨T.convert x, arith_eq_some_iff.mpr ⟨fun hsigned => ?_, rfl⟩⟩
  rw [hT] at hsigned
  exact absurd hsigned Bool.false_ne_true

/-- What depends on a result may as well be said of the exact value. -/
theorem computes_convert_iff (f : ℤ → ℤ) (h : T.Computes x) :
    T.Computes (f (T.convert x)) ↔ T.Computes (f x) := by
  by_cases hsigned : T.signed = true
  · rw [convert_of_fits (h hsigned)]
  · exact ⟨fun _ h => absurd h hsigned, fun _ h => absurd h hsigned⟩

/-- A sum may be converted in parts. -/
theorem convert_add_convert (hle : T.width ≤ U.width) (x y : ℤ) :
    T.convert (T.convert x + U.convert y) = T.convert (x + y) := by
  apply convert_congr
  have hdvd : (2 : ℤ) ^ T.width ∣ 2 ^ U.width := pow_dvd_pow 2 hle
  have hy : U.convert y % 2 ^ T.width = y % 2 ^ T.width := by
    rw [← Int.emod_emod_of_dvd (U.convert y) hdvd, convert_emod, Int.emod_emod_of_dvd y hdvd]
  rw [Int.add_emod, convert_emod, hy, ← Int.add_emod]

theorem convert_mul_convert (x y : ℤ) : T.convert (x * T.convert y) = T.convert (x * y) := by
  apply convert_congr
  rw [Int.mul_emod, convert_emod, ← Int.mul_emod]

/-! ## Congruence -/

theorem convert_modEq (hle : T.width ≤ U.width) (x : ℤ) : U.convert x ≡ x [ZMOD 2 ^ T.width] :=
  Int.ModEq.of_dvd (pow_dvd_pow 2 hle) (convert_emod U x)

/-- An operation in a type that is not narrower is right modulo the range. -/
theorem arith_modEq (hle : T.width ≤ U.width) (h : U.arith x = some y) :
    y ≡ x [ZMOD 2 ^ T.width] := by
  rw [(arith_eq_some_iff.mp h).2]
  exact convert_modEq hle x

theorem eq_convert_of_modEq (hfits : T.Fits y) (h : y ≡ x [ZMOD 2 ^ T.width]) :
    y = T.convert x := by
  rw [← convert_congr h, convert_of_fits hfits]

/-- A value between zero and one of the type is of the type. -/
theorem fits_of_le (hx : 0 ≤ x) (hxy : x ≤ y) (hy : T.Fits y) : T.Fits x :=
  ⟨T.min_nonpos.trans hx, hxy.trans hy.2⟩

theorem fits_of_le_nat {m n : ℕ} (hle : m ≤ n) (hn : T.Fits n) : T.Fits m :=
  fits_of_le (Int.natCast_nonneg m) (Int.ofNat_le.mpr hle) hn

/-- A value that is not negative is one of `size_t`, if the type is not wider. -/
theorem size_fits (hT : T.width ≤ 64) (hx : 0 ≤ x) (h : T.Fits x) : size.Fits x :=
  ⟨hx, h.2.trans (max_mono (Or.inr ⟨hT, fun h => nomatch h⟩))⟩

end IntegerType

end Libhipcxx
