import Mathlib.Algebra.Order.Ring.Int
import Mathlib.RingTheory.Coprime.Lemmas
import Mathlib.RingTheory.Int.Basic

/-!
# Rational arithmetic at compile time

The templates of `ratio` are functions on constants of type `intmax_t`.  An
instantiation can fail in two ways, which are kept apart: a static assertion
fires, or an operation that no assertion guards overflows.  Every operation of
the source is checked here, so that a result means that nothing overflowed.

The gcd is computed on signed values and takes the sign its operands give it.
A `Ratio` is a valid instantiation, seen through its members `num` and `den`.
-/

namespace Libhipcxx.Rational

/-- How an instantiation fails. -/
inductive Failure where
  | assertion
  | overflow
  deriving DecidableEq

/-! ## Constants of type `intmax_t` -/

def nan : ℤ := -2 ^ 63

def min : ℤ := nan + 1

/-- `INTMAX_MAX`. -/
def max : ℤ := -min

theorem max_eq : max = 9223372036854775807 := by decide

theorem nan_eq : nan = -9223372036854775808 := by decide

theorem max_pos : 0 < max := by decide

/-- The result of an operation on `intmax_t`. -/
def intmax (x : ℤ) : Except Failure ℤ :=
  if nan ≤ x ∧ x ≤ max then .ok x else .error .overflow

/-- `static_assert`. -/
def require (p : Prop) [Decidable p] : Except Failure Unit :=
  if p then .ok () else .error .assertion

def quotient (x y : ℤ) : Except Failure ℤ := intmax (x.tdiv y)

def staticAbs (x : ℤ) : Except Failure ℤ :=
  if x < 0 then intmax (-x) else .ok x

def staticSign (x : ℤ) : ℤ := if x = 0 then 0 else if x < 0 then -1 else 1

/-- `__static_gcd`, with the two specialisations for a zero.  The remainder
overflows for the smallest value and minus one. -/
def staticGcd (x y : ℤ) : Except Failure ℤ :=
  if _hy : y = 0 then
    if x = 0 then .ok 1 else .ok x
  else if x = nan ∧ y = -1 then .error .overflow
  else staticGcd y (x.tmod y)
termination_by y.natAbs
decreasing_by
  rw [Int.natAbs_tmod]
  exact Nat.mod_lt _ (Int.natAbs_pos.mpr ‹_›)

def staticLcm (x y : ℤ) : Except Failure ℤ := do
  let gcd ← staticGcd x y
  let part ← quotient x gcd
  intmax (part * y)

/-- `__ll_add`; the sign of the second operand selects the specialisation. -/
def llAdd (x y : ℤ) : Except Failure ℤ :=
  if 0 < y then do
    let bound ← intmax (max - y)
    require (x ≤ bound)
    intmax (x + y)
  else if y = 0 then .ok x
  else do
    let bound ← intmax (min - y)
    require (bound ≤ x)
    intmax (x + y)

def llSub (x y : ℤ) : Except Failure ℤ :=
  if 0 < y then do
    let bound ← intmax (min + y)
    require (bound ≤ x)
    intmax (x - y)
  else if y = 0 then .ok x
  else do
    let bound ← intmax (max + y)
    require (x ≤ bound)
    intmax (x - y)

/-- `__ll_mul`; a zero operand selects a specialisation without assertion. -/
def llMul (x y : ℤ) : Except Failure ℤ :=
  if x = 0 ∨ y = 0 then .ok 0
  else do
    let absX ← staticAbs x
    let absY ← staticAbs y
    let bound ← quotient max absY
    require (x ≠ nan ∧ y ≠ nan ∧ absX ≤ bound)
    intmax (x * y)

/-! ## Where no operation overflows -/

variable {x y : ℤ}

theorem intmax_of_abs_le (h : |x| ≤ max) : intmax x = .ok x := by
  rw [abs_le] at h
  refine if_pos ⟨?_, h.2⟩
  rw [max_eq] at h
  rw [nan_eq]
  omega

theorem abs_le_of_intmax (h : intmax x = .ok y) : y = x ∧ nan ≤ x ∧ x ≤ max := by
  rw [intmax] at h
  split at h
  · rename_i hx
    exact ⟨(Except.ok.inj h).symm, hx⟩
  · cases h

theorem staticAbs_of_abs_le (h : |x| ≤ max) : staticAbs x = .ok |x| := by
  rw [staticAbs]
  split
  · rename_i hneg
    rw [abs_of_neg hneg] at h ⊢
    refine intmax_of_abs_le ?_
    rwa [abs_of_nonneg (by omega)]
  · rename_i hpos
    rw [abs_of_nonneg (by omega)]

theorem abs_tdiv_le (x y : ℤ) : |x.tdiv y| ≤ |x| := by
  rw [Int.abs_eq_natAbs, Int.abs_eq_natAbs, Int.natAbs_tdiv]
  exact Int.ofNat_le.mpr (Nat.div_le_self _ _)

theorem quotient_of_abs_le (h : |x| ≤ max) : quotient x y = .ok (x.tdiv y) :=
  intmax_of_abs_le ((abs_tdiv_le x y).trans h)

theorem staticSign_mul_abs (x : ℤ) : staticSign x * |x| = x := by
  rw [staticSign]
  split
  · simp_all
  · split
    · rw [abs_of_neg ‹_›]
      omega
    · rw [abs_of_nonneg (by omega)]
      omega

/-- The guarded operations are exact where the result is in range, and fail by
their own assertion elsewhere. -/
def guarded (x : ℤ) : Except Failure ℤ :=
  if |x| ≤ max then .ok x else .error .assertion

theorem require_intmax (p : Prop) [Decidable p] (h : p ↔ |x| ≤ max) :
    (do require p; intmax x) = guarded x := by
  rw [guarded, require]
  by_cases hp : p
  · rw [if_pos hp, if_pos (h.mp hp)]
    exact intmax_of_abs_le (h.mp hp)
  · rw [if_neg hp, if_neg (mt h.mpr hp)]
    rfl

theorem llAdd_eq (hx : |x| ≤ max) (hy : |y| ≤ max) :
    llAdd x y = guarded (x + y) := by
  rw [abs_le] at hx hy
  rw [llAdd]
  split
  · have hbound : |max - y| ≤ max := by rw [abs_le]; omega
    rw [intmax_of_abs_le hbound]
    refine require_intmax _ ?_
    rw [abs_le]
    omega
  · split
    · rename_i hzero
      rw [hzero, add_zero, guarded, if_pos (abs_le.mpr hx)]
    · have hbound : |min - y| ≤ max := by rw [abs_le, max]; rw [max] at hy; omega
      rw [intmax_of_abs_le hbound]
      refine require_intmax _ ?_
      rw [abs_le, max]
      rw [max] at hx hy
      omega

theorem llSub_eq (hx : |x| ≤ max) (hy : |y| ≤ max) :
    llSub x y = guarded (x - y) := by
  rw [abs_le] at hx hy
  rw [llSub]
  split
  · have hbound : |min + y| ≤ max := by rw [abs_le, max]; rw [max] at hy; omega
    rw [intmax_of_abs_le hbound]
    refine require_intmax _ ?_
    rw [abs_le, max]
    rw [max] at hx hy
    omega
  · split
    · rename_i hzero
      rw [hzero, sub_zero, guarded, if_pos (abs_le.mpr hx)]
    · have hbound : |max + y| ≤ max := by rw [abs_le]; omega
      rw [intmax_of_abs_le hbound]
      refine require_intmax _ ?_
      rw [abs_le]
      omega

theorem ne_nan_of_abs_le (h : |x| ≤ max) : x ≠ nan := by
  rw [abs_le, max_eq] at h
  rw [nan_eq]
  omega

theorem llMul_eq (hx : |x| ≤ max) (hy : |y| ≤ max) :
    llMul x y = guarded (x * y) := by
  rw [llMul]
  split
  · rename_i hzero
    have hprod : x * y = 0 := mul_eq_zero.mpr hzero
    rw [hprod, guarded, abs_zero, if_pos max_pos.le]
  · rename_i hzero
    rw [not_or] at hzero
    have hmax : |max| ≤ max := (abs_of_pos max_pos).le
    have habs : 0 < |y| := abs_pos.mpr hzero.2
    rw [staticAbs_of_abs_le hx, staticAbs_of_abs_le hy]
    simp only [bind, Except.bind, quotient_of_abs_le hmax]
    refine require_intmax _ ?_
    rw [Int.tdiv_eq_ediv_of_nonneg max_pos.le, Int.le_ediv_iff_mul_le habs,
      abs_mul]
    exact ⟨fun h => h.2.2,
      fun h => ⟨ne_nan_of_abs_le hx, ne_nan_of_abs_le hy, h⟩⟩

/-! ## The gcd -/

theorem abs_tmod_le (x y : ℤ) : |x.tmod y| ≤ |x| := by
  rw [Int.abs_eq_natAbs, Int.abs_eq_natAbs, Int.natAbs_tmod]
  exact Int.ofNat_le.mpr (Nat.mod_le _ _)

theorem gcd_tmod (x y : ℤ) : Int.gcd y (x.tmod y) = Int.gcd x y := by
  rw [Int.gcd_comm x y, Int.gcd_def, Int.gcd_def, Int.natAbs_tmod,
    Nat.gcd_comm, ← Nat.gcd_rec]

/-- The signed gcd is the gcd up to its sign; two zeros give one. -/
theorem staticGcd_eq (hx : |x| ≤ max) (hy : |y| ≤ max) :
    ∃ g, staticGcd x y = .ok g ∧ |g| ≤ max ∧ g ≠ 0 ∧
      (x ≠ 0 ∨ y ≠ 0 → g.natAbs = Int.gcd x y) ∧
      (0 ≤ x → 0 ≤ y → 0 < g) := by
  fun_induction staticGcd x y with
  | case1 => exact ⟨1, rfl, by decide, by decide, by simp, by simp⟩
  | case2 x hx0 =>
      refine ⟨x, rfl, hx, hx0, by simp, ?_⟩
      intro hpos _
      omega
  | case3 x y hy0 hover => exact absurd hover.1 (ne_nan_of_abs_le hx)
  | case4 x y hy0 hover ih =>
      obtain ⟨g, hg, hle, hne, hgcd, hpos⟩ :=
        ih hy ((abs_tmod_le x y).trans hx)
      refine ⟨g, hg, hle, hne, ?_, ?_⟩
      · intro _
        rw [hgcd (Or.inl hy0), gcd_tmod]
      · intro hx0 hy0
        exact hpos hy0 (Int.tmod_nonneg y hx0)

/-- `x` and `y` divided by their gcd, as the code computes them. -/
structure Cancelled (x y g a b : ℤ) : Prop where
  gcd_eq : staticGcd x y = .ok g
  gcd_ne : g ≠ 0
  gcd_le : |g| ≤ max
  gcd_pos : 0 ≤ x → 0 ≤ y → 0 < g
  left_eq : x = g * a
  right_eq : y = g * b
  left_quotient : quotient x g = .ok a
  right_quotient : quotient y g = .ok b
  left_le : |a| ≤ max
  right_le : |b| ≤ max
  coprime : x ≠ 0 ∨ y ≠ 0 → IsCoprime a b

theorem quotient_mul_left {g a : ℤ} (hg : g ≠ 0) (h : |g * a| ≤ max) :
    quotient (g * a) g = .ok a := by
  rw [quotient_of_abs_le h, Int.mul_tdiv_cancel_left _ hg]

theorem abs_le_of_abs_mul_le {g a : ℤ} (hg : g ≠ 0) (h : |g * a| ≤ max) :
    |a| ≤ max := by
  rw [abs_mul] at h
  have hone : 1 ≤ |g| := Int.one_le_abs hg
  have hpos := abs_nonneg a
  nlinarith

theorem exists_cancelled (hx : |x| ≤ max) (hy : |y| ≤ max) :
    ∃ g a b, Cancelled x y g a b := by
  obtain ⟨g, hg, hle, hne, hgcd, hpos⟩ := staticGcd_eq hx hy
  have hdvd : g ∣ x ∧ g ∣ y := by
    by_cases h : x ≠ 0 ∨ y ≠ 0
    · rw [← Int.natAbs_dvd, ← Int.natAbs_dvd (a := g), hgcd h]
      exact ⟨Int.gcd_dvd_left _ _, Int.gcd_dvd_right _ _⟩
    · rw [not_or, not_not, not_not] at h
      simp [h]
  obtain ⟨⟨a, rfl⟩, ⟨b, rfl⟩⟩ := hdvd
  refine ⟨g, a, b, hg, hne, hle, hpos, rfl, rfl, quotient_mul_left hne hx,
    quotient_mul_left hne hy, abs_le_of_abs_mul_le hne hx,
    abs_le_of_abs_mul_le hne hy, ?_⟩
  intro h
  have hmul := hgcd h
  rw [Int.gcd_mul_left] at hmul
  rw [Int.isCoprime_iff_gcd_eq_one]
  exact Nat.eq_of_mul_eq_mul_left (Int.natAbs_pos.mpr hne)
    (hmul.symm.trans (mul_one _).symm)

/-! ## Valid ratios -/

/-- The members `num` and `den` of a valid instantiation. -/
@[ext] structure Ratio where
  num : ℤ
  den : ℤ
  den_pos : 0 < den
  den_le : den ≤ max
  num_le : |num| ≤ max
  reduced : IsCoprime num den
  deriving DecidableEq

/-- The members that `ratio` computes from its parameters `Num` and `Den`. -/
def members (Num Den : ℤ) : Except Failure (ℤ × ℤ) := do
  let Num ← intmax Num
  let Den ← intmax Den
  let na ← staticAbs Num
  require (0 ≤ na)
  require (Den ≠ 0)
  let da ← staticAbs Den
  require (0 < da)
  let gcd ← staticGcd na da
  let signed ← intmax (staticSign Num * staticSign Den * na)
  let num ← quotient signed gcd
  let den ← quotient da gcd
  return (num, den)

theorem bind_eq_ok {α β : Type} {m : Except Failure α}
    {f : α → Except Failure β} {b : β} :
    m >>= f = .ok b ↔ ∃ a, m = .ok a ∧ f a = .ok b := by
  cases m with
  | error e => simp [bind, Except.bind]
  | ok a => simp [bind, Except.bind]

theorem require_eq_ok {p : Prop} [Decidable p] {u : Unit} :
    require p = .ok u ↔ p := by
  rw [require]
  split <;> simp_all

theorem require_true {p : Prop} [Decidable p] (h : p) : require p = .ok () :=
  if_pos h

theorem abs_le_of_staticAbs {a : ℤ} (hx : intmax x = .ok y)
    (ha : staticAbs y = .ok a) : |x| ≤ max := by
  obtain ⟨rfl, hlo, hhi⟩ := abs_le_of_intmax hx
  rw [staticAbs] at ha
  rw [abs_le]
  split at ha
  · have hneg := (abs_le_of_intmax ha).2.2
    omega
  · exact ⟨by rw [max_eq]; omega, hhi⟩

theorem members_range {Num Den : ℤ} {p : ℤ × ℤ} (h : members Num Den = .ok p) :
    |Num| ≤ max ∧ |Den| ≤ max ∧ Den ≠ 0 := by
  simp only [members, bind_eq_ok, require_eq_ok] at h
  obtain ⟨n, hn, d, hd, na, hna, -, -, -, hd0, da, hda, -⟩ := h
  refine ⟨abs_le_of_staticAbs hn hna, abs_le_of_staticAbs hd hda, ?_⟩
  rwa [(abs_le_of_intmax hd).1] at hd0

/-- The sign of a fraction, as a factor of the reduced numerator. -/
theorem signs_mul (Num : ℤ) {Den a : ℤ} (hden : Den ≠ 0)
    (hzero : Num = 0 → a = 0) :
    staticSign Num * staticSign Den * a = a ∨
      staticSign Num * staticSign Den * a = -a := by
  by_cases hnum : Num = 0
  · simp [hzero hnum]
  · simp only [staticSign, hnum, hden, ↓reduceIte]
    split <;> split <;> simp

/-- Parameters in range give the fraction in lowest terms. -/
theorem members_eq {Num Den : ℤ} (hnum : |Num| ≤ max) (hden : |Den| ≤ max)
    (hzero : Den ≠ 0) :
    ∃ num den, members Num Den = .ok (num, den) ∧ num * Den = Num * den ∧
      0 < den ∧ den ≤ max ∧ |num| ≤ max ∧ IsCoprime num den := by
  have hpos : 0 < |Den| := abs_pos.mpr hzero
  obtain ⟨g, a, b, hc⟩ :=
    exists_cancelled ((abs_abs Num).trans_le hnum) ((abs_abs Den).trans_le hden)
  have hg : 0 < g := hc.gcd_pos (abs_nonneg _) hpos.le
  have hb : 0 < b := by
    rw [hc.right_eq] at hpos
    exact (pos_iff_pos_of_mul_pos hpos).mp hg
  have ha : Num = 0 → a = 0 := by
    intro h
    have hleft := hc.left_eq
    rw [h, abs_zero] at hleft
    exact (mul_eq_zero.mp hleft.symm).resolve_left hg.ne'
  have hsigns := signs_mul Num hzero ha
  set num := staticSign Num * staticSign Den * a with hnum_eq
  have habs : |num| = |a| := abs_eq_abs.mpr hsigns
  have hsigned : staticSign Num * staticSign Den * |Num| = g * num := by
    rw [hc.left_eq, hnum_eq]
    ring
  have hsigned_le : |g * num| ≤ max := by
    rw [abs_mul, habs, ← abs_mul, ← hc.left_eq]
    exact (abs_abs Num).trans_le hnum
  refine ⟨num, b, ?_, ?_, hb, ?_, habs.trans_le hc.left_le, ?_⟩
  · simp only [members, bind_eq_ok, require_eq_ok]
    refine ⟨Num, intmax_of_abs_le hnum, Den, intmax_of_abs_le hden, |Num|,
      staticAbs_of_abs_le hnum, (), abs_nonneg _, (), hzero, |Den|,
      staticAbs_of_abs_le hden, (), hpos, g, hc.gcd_eq, g * num, ?_, num,
      quotient_mul_left hg.ne' hsigned_le, b, hc.right_quotient, rfl⟩
    rw [hsigned]
    exact intmax_of_abs_le hsigned_le
  · have hNum := staticSign_mul_abs Num
    have hDen := staticSign_mul_abs Den
    have hsq : staticSign Den * staticSign Den = 1 := by
      simp only [staticSign, hzero, ↓reduceIte]
      split <;> rfl
    calc num * Den
        = staticSign Num * staticSign Den * a *
            (staticSign Den * (g * b)) := by rw [← hc.right_eq, hDen]
      _ = staticSign Num * (g * a) * b * (staticSign Den * staticSign Den) := by
          ring
      _ = Num * b := by rw [hsq, ← hc.left_eq, hNum, mul_one]
  · exact (le_abs_self b).trans hc.right_le
  · have hcop := hc.coprime (Or.inr hpos.ne')
    rcases hsigns with h | h
    · rw [h]
      exact hcop
    · rw [h]
      exact hcop.neg_left

theorem members_valid {Num Den num den : ℤ}
    (h : members Num Den = .ok (num, den)) :
    0 < den ∧ den ≤ max ∧ |num| ≤ max ∧ IsCoprime num den := by
  obtain ⟨hnum, hden, hzero⟩ := members_range h
  obtain ⟨num', den', h', -, hvalid⟩ := members_eq hnum hden hzero
  rw [h, Except.ok.injEq, Prod.mk.injEq] at h'
  rwa [h'.1, h'.2]

/-- The instantiation of `ratio` with the given parameters. -/
def ratio (Num Den : ℤ) : Except Failure Ratio :=
  match h : members Num Den with
  | .ok (num, den) =>
      have hvalid := members_valid h
      .ok ⟨num, den, hvalid.1, hvalid.2.1, hvalid.2.2.1, hvalid.2.2.2⟩
  | .error failure => .error failure

/-! ## Operations -/

def ratioMultiply (R₁ R₂ : Ratio) : Except Failure Ratio := do
  let gcdN1D2 ← staticGcd R₁.num R₂.den
  let gcdD1N2 ← staticGcd R₁.den R₂.num
  let num ← llMul (← quotient R₁.num gcdN1D2) (← quotient R₂.num gcdD1N2)
  let den ← llMul (← quotient R₂.den gcdN1D2) (← quotient R₁.den gcdD1N2)
  ratio num den

def ratioDivide (R₁ R₂ : Ratio) : Except Failure Ratio := do
  let gcdN1N2 ← staticGcd R₁.num R₂.num
  let gcdD1D2 ← staticGcd R₁.den R₂.den
  let num ← llMul (← quotient R₁.num gcdN1N2) (← quotient R₂.den gcdD1D2)
  let den ← llMul (← quotient R₂.num gcdN1N2) (← quotient R₁.den gcdD1D2)
  ratio num den

/-- What `__ratio_add` and `__ratio_subtract` share; they differ in the
guarded operation `op`. -/
def ratioCombine (op : ℤ → ℤ → Except Failure ℤ) (R₁ R₂ : Ratio) :
    Except Failure Ratio := do
  let gcdN1N2 ← staticGcd R₁.num R₂.num
  let gcdD1D2 ← staticGcd R₁.den R₂.den
  let common ← ratio gcdN1N2 (← quotient R₁.den gcdD1D2)
  let left ← llMul (← quotient R₁.num gcdN1N2) (← quotient R₂.den gcdD1D2)
  let right ← llMul (← quotient R₂.num gcdN1N2) (← quotient R₁.den gcdD1D2)
  let part ← ratio (← op left right) R₂.den
  ratioMultiply common part

def ratioAdd (R₁ R₂ : Ratio) : Except Failure Ratio := ratioCombine llAdd R₁ R₂

def ratioSubtract (R₁ R₂ : Ratio) : Except Failure Ratio :=
  ratioCombine llSub R₁ R₂

/-- The member `type` of `__ratio_gcd`. -/
def ratioGcd (R₁ R₂ : Ratio) : Except Failure Ratio := do
  let num ← staticGcd R₁.num R₂.num
  let den ← staticLcm R₁.den R₂.den
  ratio num den

end Libhipcxx.Rational
