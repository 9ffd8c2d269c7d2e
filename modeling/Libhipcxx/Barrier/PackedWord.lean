import Mathlib.Algebra.Group.Nat.Defs
import Mathlib.Data.Int.Notation
import Mathlib.Logic.Basic

/-!
# The word of the packed barrier

`__barrier_base<__empty_completion>` keeps a phase bit, an arrived count and a
negated expected count in one 64-bit word and updates them by plain additions.
The lemmas read the word as a natural number modulo `2 ^ 64`, where a carry
out of the arrived field is the flip of the phase bit.
-/

namespace Libhipcxx.Barrier.Packed

def expectedUnit : BitVec 64 := 1

def arrivedUnit : BitVec 64 := 1#64 <<< 32

def expectedMask : BitVec 64 := arrivedUnit - 1

def phaseBit : BitVec 64 := 1#64 <<< 63

def arrivedMask : BitVec 64 := (phaseBit - 1) &&& ~~~expectedMask

/-- `numeric_limits<int32_t>::max()`. -/
def max : ℕ := 2 ^ 31 - 1

/-- `__init`. -/
def init (count : ℕ) : BitVec 64 :=
  (((1#64 <<< 31) - BitVec.ofNat 64 count) <<< 32) |||
    ((1#64 <<< 31) - BitVec.ofNat 64 count)

/-- The increment of an arrival. -/
def inc (update : ℕ) : BitVec 64 := arrivedUnit * BitVec.ofNat 64 update

/-- Whether `arrive` sees its own increment change the phase bit. -/
def flips (old inc : BitVec 64) : Bool :=
  ((old ^^^ (old + inc)) &&& phaseBit) != 0

/-- What the arrival that flips the phase bit adds afterwards. -/
def reset (old : BitVec 64) : BitVec 64 := (old &&& expectedMask) <<< 32

def tryWaitPhase (current phase : BitVec 64) : Bool :=
  (current &&& phaseBit) != phase

def tryWait (current old : BitVec 64) : Bool :=
  tryWaitPhase current (old &&& phaseBit)

def tryWaitParity (current : BitVec 64) (parity : Bool) : Bool :=
  tryWaitPhase current (if parity then phaseBit else 0)

/-- The arrived field of a word. -/
def arrived (current : BitVec 64) : ℕ := ((current &&& arrivedMask) >>> 32).toNat

/-- The phase bit of phase number `k`. -/
def parityBit (k : ℕ) : BitVec 64 := if k % 2 = 1 then phaseBit else 0

theorem phaseBit_ne_zero : phaseBit ≠ 0#64 := by decide

theorem parityBit_eq_iff (j k : ℕ) :
    parityBit j = parityBit k ↔ j % 2 = k % 2 := by
  have hne := phaseBit_ne_zero
  unfold parityBit
  rcases Nat.mod_two_eq_zero_or_one j with hj | hj
  · rcases Nat.mod_two_eq_zero_or_one k with hk | hk
    · simp [hj, hk]
    · simp [hj, hk, hne.symm]
  · rcases Nat.mod_two_eq_zero_or_one k with hk | hk
    · simp [hj, hk, hne]
    · simp [hj, hk]

/-- Reading the phase bit divides by `2 ^ 63`. -/
theorem ofNat_and_phaseBit (v : ℕ) :
    BitVec.ofNat 64 v &&& phaseBit = parityBit (v / 2 ^ 63) := by
  rw [phaseBit, ← BitVec.twoPow_eq, BitVec.and_twoPow, BitVec.getLsbD_ofNat,
    Nat.testBit_eq_decide_div_mod_eq]
  simp [parityBit, phaseBit, BitVec.twoPow_eq]

/-- An increment is seen to flip the phase bit exactly when it changes the
parity of the quotient by `2 ^ 63`. -/
theorem flips_ofNat (v i : ℕ) :
    flips (BitVec.ofNat 64 v) (BitVec.ofNat 64 i) = true ↔
      v / 2 ^ 63 % 2 ≠ (v + i) / 2 ^ 63 % 2 := by
  have hsum : BitVec.ofNat 64 v + BitVec.ofNat 64 i = BitVec.ofNat 64 (v + i) :=
    (BitVec.ofNat_add v i).symm
  have hxor : (BitVec.ofNat 64 v ^^^ BitVec.ofNat 64 (v + i)) &&& phaseBit =
      parityBit (v / 2 ^ 63) ^^^ parityBit ((v + i) / 2 ^ 63) := by
    rw [← ofNat_and_phaseBit, ← ofNat_and_phaseBit]
    apply BitVec.eq_of_getLsbD_eq
    intro i _
    simp only [BitVec.getLsbD_and, BitVec.getLsbD_xor]
    exact Bool.and_xor_distrib_right _ _ _
  have hzero : parityBit (v / 2 ^ 63) ^^^ parityBit ((v + i) / 2 ^ 63) = 0 ↔
      v / 2 ^ 63 % 2 = (v + i) / 2 ^ 63 % 2 := by
    rw [← parityBit_eq_iff]
    exact BitVec.xor_eq_zero_iff
  rw [flips, hsum, hxor, bne_iff_ne, ne_eq, hzero]

theorem inc_eq (update : ℕ) : inc update = BitVec.ofNat 64 (update * 2 ^ 32) := by
  have hunit : arrivedUnit = BitVec.ofNat 64 (2 ^ 32) := by decide
  rw [inc, hunit, Nat.mul_comm]
  exact (BitVec.ofNat_mul _ _).symm

theorem expectedUnit_eq : expectedUnit = BitVec.ofNat 64 1 := rfl

/-- The second addition of the completing arrival moves the expected field
into the arrived field. -/
theorem reset_ofNat (v : ℕ) :
    reset (BitVec.ofNat 64 v) = BitVec.ofNat 64 (v % 2 ^ 32 * 2 ^ 32) := by
  have hmask : expectedMask = BitVec.ofNat 64 (2 ^ 32 - 1) := by decide
  have hlow : (BitVec.ofNat 64 v &&& expectedMask).toNat = v % 2 ^ 32 := by
    rw [hmask, BitVec.toNat_and, BitVec.toNat_ofNat, BitVec.toNat_ofNat,
      Nat.mod_eq_of_lt (by decide : 2 ^ 32 - 1 < 2 ^ 64),
      Nat.and_two_pow_sub_one_eq_mod]
    exact Nat.mod_mod_of_dvd v (Nat.pow_dvd_pow 2 (by decide))
  apply BitVec.eq_of_toNat_eq
  rw [reset, BitVec.toNat_shiftLeft, hlow, Nat.shiftLeft_eq,
    BitVec.toNat_ofNat]

theorem arrived_ofNat (v : ℕ) :
    arrived (BitVec.ofNat 64 v) = v / 2 ^ 32 % 2 ^ 31 := by
  have hmask : arrivedMask = BitVec.ofNat 64 ((2 ^ 31 - 1) <<< 32) := by decide
  have hshift : (BitVec.ofNat 64 v &&& arrivedMask) >>> 32 =
      (BitVec.ofNat 64 v >>> 32) &&& BitVec.ofNat 64 (2 ^ 31 - 1) := by
    rw [hmask, BitVec.ushiftRight_and_distrib]
    congr 1
  rw [arrived, hshift, BitVec.toNat_and, BitVec.toNat_ushiftRight,
    BitVec.toNat_ofNat, BitVec.toNat_ofNat, Nat.shiftRight_eq_div_pow,
    Nat.mod_eq_of_lt (by decide : 2 ^ 31 - 1 < 2 ^ 64),
    Nat.and_two_pow_sub_one_eq_mod]
  omega

/-- The constructor's word: the negated count in both fields. -/
theorem init_eq {count : ℕ} (h : count ≤ 2 ^ 31) :
    init count =
      BitVec.ofNat 64 ((2 ^ 31 - count) * 2 ^ 32 + (2 ^ 31 - count)) := by
  have hneg : (1#64 <<< 31) - BitVec.ofNat 64 count =
      BitVec.ofNat 64 (2 ^ 31 - count) := by
    apply BitVec.eq_of_toNat_eq
    rw [BitVec.toNat_sub]
    simp only [BitVec.toNat_ofNat, BitVec.toNat_shiftLeft]
    omega
  have hlow : 2 ^ 31 - count < 2 ^ 32 := by omega
  apply BitVec.eq_of_toNat_eq
  rw [init, hneg, BitVec.toNat_or, BitVec.toNat_shiftLeft, BitVec.toNat_ofNat,
    BitVec.toNat_ofNat, Nat.mod_eq_of_lt (by omega : 2 ^ 31 - count < 2 ^ 64),
    Nat.shiftLeft_eq,
    Nat.mod_eq_of_lt (by omega : (2 ^ 31 - count) * 2 ^ 32 < 2 ^ 64),
    Nat.mod_eq_of_lt
      (by omega : (2 ^ 31 - count) * 2 ^ 32 + (2 ^ 31 - count) < 2 ^ 64),
    ← Nat.shiftLeft_eq]
  exact (Nat.shiftLeft_add_eq_or_of_lt hlow _).symm

end Libhipcxx.Barrier.Packed
