import Mathlib.Algebra.Group.Int.Defs
import Mathlib.Algebra.Group.Nat.Defs
import Mathlib.Logic.Basic

/-!
# Machine integers

Signed operations of 32 bits that fail where they overflow, division of
negative numbers by rounding towards zero, and operations on words that agree
with those on the natural numbers as long as nothing wraps around.
-/

namespace Libhipcxx.MachineInt

/-- The result of a signed operation of 32 bits; none if it overflows. -/
def int32 (x : ℤ) : Option ℤ := if -2 ^ 31 ≤ x ∧ x < 2 ^ 31 then some x else none

theorem int32_of_bounds {x : ℤ} (hlo : -2147483648 ≤ x) (hhi : x < 2147483648) :
    int32 x = some x :=
  if_pos ⟨hlo, hhi⟩

/-- The dividend shifted for a negative number, without overflow. -/
theorem int32_shifted {z k : ℤ} (hlo : -2147483648 ≤ z - k) (hk : 0 ≤ k) :
    (if 0 ≤ z then some z else int32 (z - k)) =
      some (if 0 ≤ z then z else z - k) := by
  split
  · rfl
  · exact int32_of_bounds hlo (by omega)

/-- Rounding towards zero from a shifted dividend is rounding down. -/
theorem tdiv_shifted (z : ℤ) {n : ℤ} (hn : 0 < n) :
    (if 0 ≤ z then z else z - (n - 1)).tdiv n = z / n := by
  split
  · rename_i hz
    exact Int.tdiv_eq_ediv_of_nonneg hz
  · rename_i hz
    have hneg : z - (n - 1) = -(n - 1 - z) := by omega
    have hpos : 0 ≤ n - 1 - z := by omega
    rw [hneg, Int.neg_tdiv, Int.tdiv_eq_ediv_of_nonneg hpos]
    have hquotient := Int.mul_ediv_add_emod z n
    have hrest := Int.emod_nonneg z (Int.ne_of_gt hn)
    have hrest_lt := Int.emod_lt_of_pos z hn
    have hshift : n - 1 - z = n - 1 - z % n + n * -(z / n) := by
      rw [Int.mul_neg]
      omega
    rw [hshift, Int.add_mul_ediv_left _ _ (Int.ne_of_gt hn),
      Int.ediv_eq_zero_of_lt (by omega) (by omega)]
    omega

theorem tmod_eq_zero_iff (z n : ℤ) : z.tmod n = 0 ↔ z % n = 0 := by
  rw [← Int.dvd_iff_tmod_eq_zero, Int.dvd_iff_emod_eq_zero]

theorem toNat_ofNat_of_lt {w n : ℕ} (h : n < 2 ^ w) : (BitVec.ofNat w n).toNat = n := by
  rw [BitVec.toNat_ofNat, Nat.mod_eq_of_lt h]

theorem ofNat_div {w a b : ℕ} (ha : a < 2 ^ w) (hb : b < 2 ^ w) :
    BitVec.ofNat w a / BitVec.ofNat w b = BitVec.ofNat w (a / b) := by
  have hquotient : a / b < 2 ^ w := Nat.lt_of_le_of_lt (Nat.div_le_self a b) ha
  refine BitVec.eq_of_toNat_eq ?_
  simp only [BitVec.toNat_udiv, toNat_ofNat_of_lt, ha, hb, hquotient]

theorem ofNat_sub {w a b : ℕ} (ha : a < 2 ^ w) (hba : b ≤ a) :
    BitVec.ofNat w a - BitVec.ofNat w b = BitVec.ofNat w (a - b) :=
  BitVec.ofNat_sub_ofNat_of_le a b (Nat.lt_of_le_of_lt hba ha) hba

theorem ofNat_lt_ofNat {w a b : ℕ} (ha : a < 2 ^ w) (hb : b < 2 ^ w) :
    BitVec.ofNat w a < BitVec.ofNat w b ↔ a < b := by
  rw [BitVec.lt_def, toNat_ofNat_of_lt ha, toNat_ofNat_of_lt hb]

theorem ofNat_le_ofNat {w a b : ℕ} (ha : a < 2 ^ w) (hb : b < 2 ^ w) :
    BitVec.ofNat w a ≤ BitVec.ofNat w b ↔ a ≤ b := by
  rw [BitVec.le_def, toNat_ofNat_of_lt ha, toNat_ofNat_of_lt hb]

theorem toInt_ofNat_of_lt {w n : ℕ} (h : 2 * n < 2 ^ w) :
    (BitVec.ofNat w n).toInt = n := by
  have hlt : n < 2 ^ w := by omega
  rw [BitVec.toInt_eq_toNat_of_lt (by rwa [toNat_ofNat_of_lt hlt]),
    toNat_ofNat_of_lt hlt]

/-- A mask of low bits. -/
theorem one_shiftLeft_sub_one {w n : ℕ} (h : n < w) :
    ((1 : BitVec w) <<< n) - 1 = (BitVec.allOnes n).setWidth w := by
  have hlt : 2 ^ n < 2 ^ w := Nat.pow_lt_pow_right (by decide) h
  have hpos : 0 < 2 ^ n := Nat.two_pow_pos n
  have hone : (1 : BitVec w).toNat = 1 := BitVec.toNat_one (by omega)
  have hshift : ((1 : BitVec w) <<< n).toNat = 2 ^ n := by
    rw [BitVec.toNat_shiftLeft, hone, Nat.shiftLeft_eq,
      Nat.one_mul, Nat.mod_eq_of_lt hlt]
  have hle : (1 : BitVec w) ≤ (1 : BitVec w) <<< n := by
    rw [BitVec.le_def, hshift, hone]
    exact hpos
  apply BitVec.eq_of_toNat_eq
  rw [BitVec.toNat_sub_of_le hle, hshift, hone,
    BitVec.toNat_setWidth, BitVec.toNat_allOnes]
  exact (Nat.mod_eq_of_lt (by omega)).symm

theorem setWidth_signExtend {n N : ℕ} (h : n ≤ N) (v : BitVec n) :
    (v.signExtend N).setWidth n = v := by
  apply BitVec.eq_of_getLsbD_eq
  intro i hi
  have hN : i < N := by omega
  rw [BitVec.getLsbD_setWidth, BitVec.getLsbD_signExtend]
  simp [hi, hN]

/-- The zero extension is the sign extension of what is not negative. -/
theorem setWidth_eq_signExtend_iff {n N : ℕ} (h : n < N) (v : BitVec n) :
    v.setWidth N = v.signExtend N ↔ 0 ≤ v.toInt := by
  constructor
  · intro heq
    have hint := congrArg BitVec.toInt heq
    have hv := v.isLt
    have hpow : 2 ^ (n + 1) ≤ 2 ^ N := Nat.pow_le_pow_right (by decide) h
    have hlt : 2 * (v.setWidth N).toNat < 2 ^ N := by
      rw [BitVec.toNat_setWidth, Nat.mod_eq_of_lt (by omega)]
      omega
    rw [BitVec.toInt_signExtend_of_le (by omega)] at hint
    rw [← hint, BitVec.toInt_eq_toNat_of_lt hlt]
    exact Int.natCast_nonneg _
  · intro hpos
    have hmsb : v.msb = false := by
      rw [BitVec.msb_eq_toInt]
      simpa using hpos
    exact (BitVec.signExtend_eq_setWidth_of_msb_false hmsb).symm

end Libhipcxx.MachineInt
