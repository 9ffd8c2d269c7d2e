import Libhipcxx.Rational.Exact
import Libhipcxx.Support.IntegerType

/-!
# Durations

A duration type has a signed integer as representation and a positive period.
Whether an operation on two duration types compiles depends on the types
alone: the common period must be a ratio, and each operand must convert to it
without a fraction and without overflow of the factor.  An operation that
compiles then works on the counts, where signed overflow is undefined and a
conversion to a narrower type wraps around.
-/

namespace Libhipcxx.Chrono

open Rational (Failure Ratio ratio ratioDivide staticGcd quotient intmax
  require)

/-! ## Representations -/

/-- The signed integer types; `intmax_t` is `long`. -/
inductive Rep where
  | char
  | signedChar
  | wchar
  | short
  | int
  | long
  | longLong
  | int128
  deriving DecidableEq

namespace Rep

def width : Rep → ℕ
  | .char | .signedChar => 8
  | .short => 16
  | .wchar | .int => 32
  | .long | .longLong => 64
  | .int128 => 128

/-- The conversion rank. -/
def rank : Rep → ℕ
  | .char | .signedChar => 1
  | .short => 2
  | .wchar | .int => 3
  | .long => 4
  | .longLong => 5
  | .int128 => 6

/-- Integral promotion. -/
def promote (r : Rep) : Rep := if r.rank ≤ Rep.int.rank then .int else r

/-- `common_type`: a type with itself, else the usual arithmetic
conversions. -/
def common (r s : Rep) : Rep :=
  if r = s then r
  else if r.promote.rank < s.promote.rank then s.promote else r.promote

/-- The type as a range of integers. -/
def type (r : Rep) : IntegerType := ⟨true, r.width, by cases r <;> decide⟩

def Fits (r : Rep) (x : ℤ) : Prop := r.type.Fits x

instance (r : Rep) (x : ℤ) : Decidable (r.Fits x) :=
  inferInstanceAs (Decidable (r.type.Fits x))

theorem Fits.of_width_le {r s : Rep} {x : ℤ} (h : r.Fits x)
    (hle : r.width ≤ s.width) : s.Fits x :=
  IntegerType.fits_of_width_le rfl rfl hle h

theorem width_le_common_left (r s : Rep) : r.width ≤ (r.common s).width := by
  cases r <;> cases s <;> decide

theorem common_comm (r s : Rep) : r.common s = s.common r := by
  cases r <;> cases s <;> decide

theorem width_le_promote (r : Rep) : r.width ≤ r.promote.width := by
  cases r <;> decide

end Rep

/-! ## Duration types -/

/-- The type `duration<rep, ratio<Num, Den>>`, whose static assertions hold.
`period` is the instantiation with its members in lowest terms. -/
structure DurationType where
  rep : Rep
  Num : ℤ
  Den : ℤ
  period : Ratio
  period_eq : ratio Num Den = .ok period
  period_pos : 0 < period.num
  deriving DecidableEq

def nanoseconds : DurationType where
  rep := .longLong
  Num := 1
  Den := 1000000000
  period := ⟨1, 1000000000, by decide, by decide, by decide, isCoprime_one_left⟩
  period_eq := by decide +kernel
  period_pos := by decide

def milliseconds : DurationType where
  rep := .longLong
  Num := 1
  Den := 1000
  period := ⟨1, 1000, by decide, by decide, by decide, isCoprime_one_left⟩
  period_eq := by decide +kernel
  period_pos := by decide

def seconds : DurationType where
  rep := .longLong
  Num := 1
  Den := 1
  period := ⟨1, 1, Int.one_pos, Rational.max_pos, by decide, isCoprime_one_left⟩
  period_eq := by decide +kernel
  period_pos := by decide

def minutes : DurationType where
  rep := .long
  Num := 60
  Den := 1
  period := ⟨60, 1, Int.one_pos, Rational.max_pos, by decide, isCoprime_one_right⟩
  period_eq := by decide +kernel
  period_pos := by decide

def hours : DurationType where
  rep := .long
  Num := 3600
  Den := 1
  period := ⟨3600, 1, Int.one_pos, Rational.max_pos, by decide, isCoprime_one_right⟩
  period_eq := by decide +kernel
  period_pos := by decide

@[ext] structure Duration (T : DurationType) where
  count : ℤ
  fits : T.rep.Fits count
  deriving DecidableEq

/-- The explicit constructor from a number. -/
def Duration.ofNumber (T : DurationType) (x : ℤ) : Duration T :=
  ⟨T.rep.type.convert x, T.rep.type.fits_convert x⟩

/-- The template `duration` applied to its arguments. -/
def durationType (rep : Rep) (Num Den : ℤ) : Except Failure DurationType :=
  match h : ratio Num Den with
  | .ok period =>
      if hpos : 0 < period.num then .ok ⟨rep, Num, Den, period, h, hpos⟩
      else .error .assertion
  | .error failure => .error failure

/-- `common_type` of two duration types, with `__ratio_gcd` of the periods. -/
def commonType (T U : DurationType) : Except Failure DurationType := do
  let num ← staticGcd T.period.num U.period.num
  let den ← Rational.staticLcm T.period.den U.period.den
  durationType (T.rep.common U.rep) num den

/-! ## Conversion -/

/-- `__no_overflow`: the members `value` and `type`. -/
def noOverflow (R₁ R₂ : Ratio) : Except Failure (Bool × Ratio) := do
  let gcdN1N2 ← staticGcd R₁.num R₂.num
  let gcdD1D2 ← staticGcd R₁.den R₂.den
  let n1 ← quotient R₁.num gcdN1N2
  let d1 ← quotient R₁.den gcdD1D2
  let n2 ← quotient R₂.num gcdN1N2
  let d2 ← quotient R₂.den gcdD1D2
  let value := decide (n1 ≤ Rational.max.tdiv d2 ∧ n2 ≤ Rational.max.tdiv d1)
  let num ← if value then intmax (n1 * d2) else .ok 1
  let den ← if value then intmax (n2 * d1) else .ok 1
  return (value, ← ratio num den)

/-- The converting constructor for integral representations: it takes part
where the factor is a whole number in range.  The result is the ratio that
`duration_cast` works with. -/
def conversion (T U : DurationType) : Except Failure Ratio := do
  let (value, factor) ← noOverflow T.period U.period
  require (value = true ∧ factor.den = 1)
  ratioDivide T.period U.period

/-- `__duration_cast`, with its four specialisations. -/
def durationCast {T : DurationType} (factor : Ratio) (U : DurationType)
    (d : Duration T) : Option (Duration U) :=
  let ct := ((U.rep.common T.rep).common .long).type
  if factor.num = 1 then
    if factor.den = 1 then some (Duration.ofNumber U d.count)
    else do
      let count ← ct.arith ((ct.convert d.count).tdiv (ct.convert factor.den))
      return Duration.ofNumber U count
  else if factor.den = 1 then do
    let count ← ct.arith (ct.convert d.count * ct.convert factor.num)
    return Duration.ofNumber U count
  else do
    let product ← ct.arith (ct.convert d.count * ct.convert factor.num)
    let count ← ct.arith (product.tdiv (ct.convert factor.den))
    return Duration.ofNumber U count

/-! ## Comparison and arithmetic -/

/-- What the compiler chooses for two operands: their common type and the
factor of each conversion to it. -/
structure Operands where
  common : DurationType
  left : Ratio
  right : Ratio
  deriving DecidableEq

def operands (T U : DurationType) : Except Failure Operands := do
  let common ← commonType T U
  let left ← conversion T common
  let right ← conversion U common
  return ⟨common, left, right⟩

variable {T U : DurationType}

/-- Both counts in the common type. -/
def Operands.counts (ops : Operands) (lhs : Duration T) (rhs : Duration U) :
    Option (ℤ × ℤ) := do
  let left ← durationCast ops.left ops.common lhs
  let right ← durationCast ops.right ops.common rhs
  return (left.count, right.count)

/-- `__duration_eq` and `__duration_lt`: a comparison of the counts in the
common type, and directly where both types are the same. -/
def compareCounts (rel : ℤ → ℤ → Bool) (lhs : Duration T) (rhs : Duration U) :
    Except Failure (Option Bool) :=
  if T = U then .ok (some (rel lhs.count rhs.count))
  else do
    let ops ← operands T U
    return (ops.counts lhs rhs).map fun (left, right) => rel left right

def eq (lhs : Duration T) (rhs : Duration U) : Except Failure (Option Bool) :=
  compareCounts (fun x y => x == y) lhs rhs

def lt (lhs : Duration T) (rhs : Duration U) : Except Failure (Option Bool) :=
  compareCounts (fun x y => decide (x < y)) lhs rhs

def ne (lhs : Duration T) (rhs : Duration U) : Except Failure (Option Bool) := do
  return (← eq lhs rhs).map not

def gt (lhs : Duration T) (rhs : Duration U) : Except Failure (Option Bool) :=
  lt rhs lhs

def le (lhs : Duration T) (rhs : Duration U) : Except Failure (Option Bool) := do
  return (← lt rhs lhs).map not

def ge (lhs : Duration T) (rhs : Duration U) : Except Failure (Option Bool) := do
  return (← lt lhs rhs).map not

/-- What `operator+` and `operator-` share. -/
def combine (op : ℤ → ℤ → ℤ) (lhs : Duration T) (rhs : Duration U) :
    Except Failure (Option ((C : DurationType) × Duration C)) := do
  let ops ← operands T U
  return do
    let (left, right) ← ops.counts lhs rhs
    let count ← ops.common.rep.promote.type.arith (op left right)
    return ⟨ops.common, Duration.ofNumber ops.common count⟩

def add (lhs : Duration T) (rhs : Duration U) :
    Except Failure (Option ((C : DurationType) × Duration C)) :=
  combine (fun x y => x + y) lhs rhs

def sub (lhs : Duration T) (rhs : Duration U) :
    Except Failure (Option ((C : DurationType) × Duration C)) :=
  combine (fun x y => x - y) lhs rhs

/-- The unary `operator+`. -/
def plus (d : Duration T) :
    Except Failure (Option ((C : DurationType) × Duration C)) := do
  let common ← commonType T T
  let factor ← conversion T common
  return (durationCast factor common d).map fun x => ⟨common, x⟩

/-- The unary `operator-`. -/
def minus (d : Duration T) :
    Except Failure (Option ((C : DurationType) × Duration C)) := do
  let common ← commonType T T
  return (T.rep.promote.type.arith (-d.count)).map fun x =>
    ⟨common, Duration.ofNumber common x⟩

/-- The unary `operator-` as a duration of the same type; none if it
overflows. -/
def Duration.neg (d : Duration T) : Option (Duration T) :=
  (T.rep.promote.type.arith (-d.count)).map (Duration.ofNumber T)

end Libhipcxx.Chrono
