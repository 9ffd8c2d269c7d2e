import Libhipcxx.Support.IntegerType
import Mathlib.Tactic.ByContra

/-!
# The integral types by name

The usual arithmetic conversions choose by rank, and two types of one width can
have different ranks.  `bool` is the exception among the types: it holds zero
and one, and a conversion to it asks whether the value is zero.
-/

namespace Libhipcxx

inductive Integral where
  | bool
  | char
  | signedChar
  | unsignedChar
  | char8
  | char16
  | char32
  | wchar
  | short
  | unsignedShort
  | int
  | unsignedInt
  | long
  | unsignedLong
  | longLong
  | unsignedLongLong
  | int128
  | unsignedInt128
  deriving DecidableEq

namespace Integral

def width : Integral → ℕ
  | .bool | .char | .signedChar | .unsignedChar | .char8 => 8
  | .char16 | .short | .unsignedShort => 16
  | .char32 | .wchar | .int | .unsignedInt => 32
  | .long | .unsignedLong | .longLong | .unsignedLongLong => 64
  | .int128 | .unsignedInt128 => 128

def signed : Integral → Bool
  | .char | .signedChar | .wchar | .short | .int | .long | .longLong | .int128 => true
  | .bool | .unsignedChar | .char8 | .char16 | .char32 | .unsignedShort
  | .unsignedInt | .unsignedLong | .unsignedLongLong | .unsignedInt128 => false

/-- The conversion rank. -/
def rank : Integral → ℕ
  | .bool => 0
  | .char | .signedChar | .unsignedChar | .char8 => 1
  | .char16 | .short | .unsignedShort => 2
  | .char32 | .wchar | .int | .unsignedInt => 3
  | .long | .unsignedLong => 4
  | .longLong | .unsignedLongLong => 5
  | .int128 | .unsignedInt128 => 6

/-- Integral promotion: to `int` where that has all values of the type. -/
def promote (r : Integral) : Integral :=
  if r.rank ≤ rank .int then
    (if r.signed ∨ r.width < width .int then .int else .unsignedInt)
  else r

/-- The unsigned type that corresponds to a promoted one. -/
def unsigned : Integral → Integral
  | .int => .unsignedInt
  | .long => .unsignedLong
  | .longLong => .unsignedLongLong
  | .int128 => .unsignedInt128
  | r => r

/-- A signed and an unsigned type: the unsigned one, unless the signed one has a
greater rank. -/
def mixed (s u : Integral) : Integral :=
  if s.rank ≤ u.rank then u
  else if u.width < s.width then s
  else s.unsigned

/-- `common_type`: a type with itself, else the usual arithmetic conversions. -/
def common (r s : Integral) : Integral :=
  if r = s then r
  else if r.promote.signed = s.promote.signed then
    (if r.promote.rank < s.promote.rank then s.promote else r.promote)
  else if r.promote.signed then mixed r.promote s.promote
  else mixed s.promote r.promote

/-- The range and the conversion of the type, except for `bool`. -/
def type (r : Integral) : IntegerType :=
  ⟨r.signed, r.width, by cases r <;> decide⟩

def Fits (r : Integral) (x : ℤ) : Prop :=
  if r = .bool then 0 ≤ x ∧ x ≤ 1 else r.type.Fits x

instance (r : Integral) (x : ℤ) : Decidable (r.Fits x) :=
  inferInstanceAs (Decidable (if r = .bool then 0 ≤ x ∧ x ≤ 1 else r.type.Fits x))

/-- `static_cast` to the type. -/
def convert (r : Integral) (x : ℤ) : ℤ :=
  if r = .bool then (if x = 0 then 0 else 1) else r.type.convert x

/-! ## Values of a type -/

variable {r s : Integral} {x : ℤ}

theorem bool_values (h : Integral.bool.Fits x) : x = 0 ∨ x = 1 := by
  rw [Fits, if_pos rfl] at h
  omega

theorem fits_type (h : r.Fits x) : r.type.Fits x := by
  by_cases hbool : r = .bool
  · subst hbool
    rcases bool_values h with rfl | rfl
    · exact IntegerType.fits_zero _
    · exact IntegerType.fits_one _
  · rwa [Fits, if_neg hbool] at h

theorem fits_convert (r : Integral) (x : ℤ) : r.Fits (r.convert x) := by
  rw [Fits, convert]
  split
  · split <;> decide
  · exact IntegerType.fits_convert _ _

theorem convert_of_fits (h : r.Fits x) : r.convert x = x := by
  by_cases hbool : r = .bool
  · subst hbool
    rcases bool_values h with rfl | rfl <;> rfl
  · rw [convert, if_neg hbool, IntegerType.convert_of_fits (fits_type h)]

/-- A value survives the way over a type that is not narrower. -/
theorem convert_convert (h : r.Fits x) (hle : r.width ≤ s.width) :
    r.convert (s.type.convert x) = x := by
  by_cases hbool : r = .bool
  · subst hbool
    rcases bool_values h with rfl | rfl
    · rw [IntegerType.convert_of_fits s.type.fits_zero]
      rfl
    · rw [IntegerType.convert_of_fits s.type.fits_one]
      rfl
  · rw [convert, if_neg hbool, IntegerType.convert_convert hle,
      IntegerType.convert_of_fits (fits_type h)]

/-- Only signed types have negative values. -/
theorem signed_of_neg (h : r.Fits x) (hneg : ¬0 ≤ x) : r.signed = true := by
  by_contra hunsigned
  have hmin := (fits_type h).1
  rw [IntegerType.min, type, if_neg hunsigned] at hmin
  exact hneg hmin

/-! ## The common type with `long` -/

/-- What a computation with operands of two types and `long` works in. -/
abbrev withLong (r s : Integral) : Integral := (r.common s).common .long

theorem withLong_comm (r s : Integral) : r.withLong s = s.withLong r := by
  cases r <;> cases s <;> decide

theorem long_le_withLong (r s : Integral) : width .long ≤ (r.withLong s).width := by
  cases r <;> cases s <;> decide

/-- It is not narrower, and where it is signed it has room for the sign. -/
theorem width_withLong (r s : Integral) :
    r.width ≤ (r.withLong s).width ∧
      ((r.withLong s).signed = true → r.signed = true ∨
        r.width < (r.withLong s).width) := by
  cases r <;> cases s <;> decide

theorem withLong_signed :
    r.signed = true → s.signed = true → (r.withLong s).signed = true := by
  cases r <;> cases s <;> decide

/-- It has all values of its first operand, except that it may be unsigned. -/
theorem fits_withLong (s : Integral) (h : r.Fits x)
    (hsign : 0 ≤ x ∨ (r.withLong s).signed = true) : (r.withLong s).type.Fits x := by
  obtain ⟨hwidth, hroom⟩ := width_withLong r s
  have hfits := fits_type h
  have hmax : r.type.max ≤ (r.withLong s).type.max := by
    by_cases hlt : r.width < (r.withLong s).width
    · exact IntegerType.max_mono (Or.inl hlt)
    · exact IntegerType.max_mono
        (Or.inr ⟨hwidth, fun hsigned => (hroom hsigned).resolve_right hlt⟩)
  by_cases hpos : 0 ≤ x
  · exact ⟨(IntegerType.min_nonpos _).trans hpos, hfits.2.trans hmax⟩
  · exact IntegerType.fits_of_width_le (signed_of_neg h hpos) (hsign.resolve_left hpos)
      hwidth hfits

theorem fits_withLong_of_le (r s : Integral) (hpos : 0 ≤ x)
    (hle : x ≤ (type .long).max) : (r.withLong s).type.Fits x :=
  ⟨(IntegerType.min_nonpos _).trans hpos,
    hle.trans (IntegerType.max_mono (Or.inr ⟨long_le_withLong r s, fun _ => rfl⟩))⟩

end Integral

end Libhipcxx
