import Libhipcxx.Bit.Word
import Libhipcxx.Support.MachineInt
import Mathlib.Algebra.BigOperators.Ring.Finset
import Mathlib.Data.Nat.Log
import Mathlib.Data.Nat.Size

/-!
# Bit operations

Narrow types are promoted to a word, and types of several words shift or rotate
one word after the other into the lowest place.
-/

namespace Libhipcxx.Bit

open Fields

/-! ## Rotations -/

variable {w : ℕ}

/-- The width in which an operation on a type takes place. -/
def promoted (w : ℕ) : ℕ := max w 32

/-- `__rotl`.  In a narrow type no shift reaches the sign of `int`. -/
def rotl (t : BitVec w) (cnt : BitVec 32) : BitVec w :=
  if cnt.toNat % w = 0 then t
  else ((t.setWidth (promoted w) <<< (cnt.toNat % w)) |||
    (t.setWidth (promoted w) >>> (w - cnt.toNat % w))).setWidth w

def rotr (t : BitVec w) (cnt : BitVec 32) : BitVec w :=
  if cnt.toNat % w = 0 then t
  else ((t.setWidth (promoted w) >>> (cnt.toNat % w)) |||
    (t.setWidth (promoted w) <<< (w - cnt.toNat % w))).setWidth w

namespace Compilation

variable (K : Compilation)

/-! ## Counts of zeros -/

/-- `__countr_zero` of one word. -/
def countrZero64 (t : BitVec 64) : ℤ := if t ≠ 0 then K.libcppCtz64 t else 64

/-- `__countr_zero_rsh_impl`; `more` is the number of words after the lowest. -/
def countrZeroRshImpl : ℕ → BitVec w → ℤ → ℤ
  | 0, t, count => count + K.countrZero64 (t.setWidth 64)
  | more + 1, t, count =>
    let cur := K.countrZero64 (t.setWidth 64)
    if cur = 64 then countrZeroRshImpl more (t >>> 64) (cur + count) else cur + count

def countrZeroDispatch (t : BitVec w) : ℤ :=
  if w ≤ 32 then K.libcppCtz32 (t.setWidth 32)
  else if w = 64 then K.libcppCtz64 (t.setWidth 64)
  else K.countrZeroRshImpl (w / 64 - 1) t 0

def countrZero (t : BitVec w) : ℤ := if t ≠ 0 then K.countrZeroDispatch t else w

/-- `__countl_zero` of one word. -/
def countlZero64 (t : BitVec 64) : ℤ := if t ≠ 0 then K.libcppClz64 t - (64 - 64) else 64

/-- `__countl_zero_rotl_impl`. -/
def countlZeroRotlImpl : ℕ → BitVec w → ℤ
  | 0, t => K.countlZero64 ((rotl t 64).setWidth 64)
  | more + 1, t =>
    let cur := K.countlZero64 ((rotl t 64).setWidth 64)
    if cur = 64 then cur + countlZeroRotlImpl more (rotl t 64) else cur

def countlZeroDispatch (t : BitVec w) : ℤ :=
  if w ≤ 32 then K.libcppClz32 (t.setWidth 32) - (32 - w)
  else if w = 64 then K.libcppClz64 (t.setWidth 64) - (64 - w)
  else K.countlZeroRotlImpl (w / 64 - 1) t

def countlZero (t : BitVec w) : ℤ := if t ≠ 0 then K.countlZeroDispatch t else w

/-! ## Population count -/

/-- `__popcount_rsh_impl`. -/
def popcountRshImpl : ℕ → BitVec w → ℤ
  | 0, t => K.libcppPopcount64 (t.setWidth 64)
  | more + 1, t => popcountRshImpl more (t >>> 64) + K.libcppPopcount64 (t.setWidth 64)

def popcountDispatch (t : BitVec w) : ℤ :=
  if w ≤ 32 then K.libcppPopcount32 (t.setWidth 32)
  else if w = 64 then K.libcppPopcount64 (t.setWidth 64)
  else K.popcountRshImpl (w / 64 - 1) t

def popcount (t : BitVec w) : ℤ := K.popcountDispatch t

/-! ## Powers of two -/

/-- `__bit_log2`. -/
def bitLog2 (t : BitVec w) : BitVec 32 := BitVec.ofInt 32 (w - 1 - K.countlZero t)

/-- `__ceil2`.  A narrow type is shifted in an `unsigned`, so far up that what
the type does not have is lost. -/
def ceil2 (t : BitVec w) : BitVec w :=
  if 32 ≤ w then (1 : BitVec w) <<< (w - K.countlZero (t - 1)).toNat
  else
    (((1 : BitVec 32) <<< ((w - K.countlZero (t - 1)) + (32 - w)).toNat) >>> (32 - w)).setWidth w

def bitFloor (t : BitVec w) : BitVec w :=
  if t = 0 then 0
  else ((1 : BitVec (promoted w)) <<< (K.bitLog2 t).toNat).setWidth w

def bitCeil (t : BitVec w) : BitVec w := if t.toNat < 2 then 1 else K.ceil2 t

def bitWidth (t : BitVec w) : BitVec w :=
  if t = 0 then 0 else (K.bitLog2 t + 1).setWidth w

end Compilation

/-! ## Rotations are rotations -/

variable {n p : ℕ}

theorem setWidth_shifts {W : ℕ} (hW : w ≤ W) (t : BitVec w) (k m : ℕ) :
    ((t.setWidth W <<< k) ||| (t.setWidth W >>> m)).setWidth w = (t <<< k) ||| (t >>> m) := by
  apply BitVec.eq_of_getLsbD_eq
  intro i hi
  have hiW : i < W := lt_of_lt_of_le hi hW
  have hleft : decide (i - k < W) = true := decide_eq_true (by omega)
  simp only [BitVec.getLsbD_setWidth, BitVec.getLsbD_or, BitVec.getLsbD_shiftLeft,
    BitVec.getLsbD_ushiftRight, hi, hiW, hleft, decide_true, Bool.true_and]
  by_cases hm : m + i < W
  · rw [decide_eq_true hm, Bool.true_and]
  · rw [decide_eq_false hm, Bool.false_and, BitVec.getLsbD_of_ge t (m + i) (by omega)]

theorem le_promoted (w : ℕ) : w ≤ promoted w := Nat.le_max_left w 32

theorem rotl_eq (t : BitVec w) (cnt : BitVec 32) : rotl t cnt = t.rotateLeft cnt.toNat := by
  rw [rotl, BitVec.rotateLeft_def, setWidth_shifts (le_promoted w)]
  split
  · rename_i hzero
    rw [hzero, BitVec.shiftLeft_zero, Nat.sub_zero, BitVec.ushiftRight_eq_zero le_rfl,
      BitVec.or_zero]
  · rfl

theorem rotr_eq (t : BitVec w) (cnt : BitVec 32) : rotr t cnt = t.rotateRight cnt.toNat := by
  rw [rotr, BitVec.rotateRight_def, BitVec.or_comm, setWidth_shifts (le_promoted w),
    BitVec.or_comm]
  split
  · rename_i hzero
    rw [hzero, BitVec.ushiftRight_zero, Nat.sub_zero, BitVec.shiftLeft_eq_zero le_rfl,
      BitVec.or_zero]
  · rfl

theorem toNat_one_shiftLeft (h : p < w) : ((1 : BitVec w) <<< p).toNat = 2 ^ p := by
  have hone : (1 : BitVec w).toNat = 1 :=
    Nat.mod_eq_of_lt (Nat.one_lt_two_pow (Nat.ne_zero_of_lt h))
  rw [BitVec.toNat_shiftLeft, hone, Nat.shiftLeft_eq, Nat.one_mul,
    Nat.mod_eq_of_lt (Nat.pow_lt_pow_right (by decide) h)]

/-! ## Counts of zeros are counts of zeros -/

/-- The number of zeros before the first one of `N` bits. -/
structure ZerosBefore (bit : ℕ → Bool) (N n : ℕ) : Prop where
  le : n ≤ N
  zeros : ∀ i < n, bit i = false
  next : n < N → bit n = true

theorem exists_zerosBefore (bit : ℕ → Bool) (N : ℕ) : ∃ n, ZerosBefore bit N n := by
  have hex : ∃ n, N ≤ n ∨ bit n = true := ⟨N, Or.inl le_rfl⟩
  refine ⟨Nat.find hex, Nat.find_min' hex (Or.inl le_rfl), ?_, ?_⟩
  · intro i hi
    have hnot := Nat.find_min hex hi
    rw [not_or, Bool.not_eq_true] at hnot
    exact hnot.2
  · intro hlt
    exact (Nat.find_spec hex).resolve_left (not_le.mpr hlt)

variable {bit bit' : ℕ → Bool} {M N : ℕ}

theorem ZerosBefore.congr (h : ZerosBefore bit N n) (hbit : ∀ i < N, bit' i = bit i) :
    ZerosBefore bit' N n := by
  refine ⟨h.le, ?_, ?_⟩
  · intro i hi
    rw [hbit i (lt_of_lt_of_le hi h.le)]
    exact h.zeros i hi
  · intro hlt
    rw [hbit n hlt]
    exact h.next hlt

/-- The count ends in the first part, or the first part has no one in it. -/
theorem ZerosBefore.split (h : ZerosBefore bit (M + N) n) :
    (n < M ∧ ZerosBefore bit M n) ∨
      (ZerosBefore bit M M ∧ M ≤ n ∧ ZerosBefore (fun i => bit (M + i)) N (n - M)) := by
  have hle := h.le
  rcases lt_or_ge n M with hlt | hge
  · exact Or.inl ⟨hlt, hlt.le, h.zeros, fun _ => h.next (by omega)⟩
  · refine Or.inr ⟨⟨le_rfl, fun i hi => h.zeros i (by omega), fun hlt => absurd hlt (lt_irrefl M)⟩,
      hge, by omega, fun i hi => h.zeros _ (by omega), ?_⟩
    intro hlt
    rw [Nat.add_sub_cancel' hge]
    exact h.next (by omega)

theorem ZerosBefore.isLowest {t : BitVec w} (h : ZerosBefore t.getLsbD w n) (hne : t ≠ 0) :
    IsLowest t n := by
  have hlt : n < w := by
    by_contra hge
    exact hne (eq_zero_of_bits fun i hi => h.zeros i (by omega))
  exact ⟨h.next hlt, h.zeros⟩

theorem ZerosBefore.eq_width {t : BitVec w} (h : ZerosBefore t.getLsbD w n) (hzero : t = 0) :
    n = w := by
  by_contra hne
  exact ne_zero_of_set (h.next (lt_of_le_of_ne h.le hne)) hzero

theorem ZerosBefore.eq_width_msb {t : BitVec w} (h : ZerosBefore t.getMsbD w n)
    (hzero : t = 0) : n = w := by
  by_contra hne
  have hbit : t.getMsbD n = false := by
    rw [hzero]
    exact BitVec.getMsbD_zero
  exact Bool.false_ne_true (hbit.symm.trans (h.next (lt_of_le_of_ne h.le hne)))

theorem ZerosBefore.isHighest {t : BitVec w} (h : ZerosBefore t.getMsbD w n) (hne : t ≠ 0) :
    n < w ∧ IsHighest t (w - 1 - n) := by
  have hbit {i : ℕ} (hi : i < w) : t.getLsbD i = t.getMsbD (w - 1 - i) :=
    BitVec.getLsbD_eq_getMsbD t i ▸ by rw [decide_eq_true hi, Bool.true_and]
  have hlt : n < w := by
    by_contra hge
    refine hne (eq_zero_of_bits fun i hi => ?_)
    rw [hbit hi]
    exact h.zeros _ (by omega)
  refine ⟨hlt, ?_, ?_⟩
  · have hplace : w - 1 - (w - 1 - n) = n := by omega
    rw [hbit (by omega), hplace]
    exact h.next hlt
  · intro i hi
    by_cases hiw : i < w
    · rw [hbit hiw]
      exact h.zeros _ (by omega)
    · exact BitVec.getLsbD_of_ge t i (not_lt.mp hiw)

namespace Compilation

variable {K : Compilation} (hK : K.intrinsics.Correct)

include hK

theorem countrZero64_eq {t : BitVec 64} (h : ZerosBefore t.getLsbD 64 n) :
    K.countrZero64 t = n := by
  rw [countrZero64]
  split
  · rename_i hne
    exact libcppCtz64_eq hK (h.isLowest hne)
  · rename_i hzero
    rw [h.eq_width (not_not.mp hzero)]
    rfl

theorem countrZero64_setWidth {t : BitVec w} (h : ZerosBefore t.getLsbD 64 n) :
    K.countrZero64 (t.setWidth 64) = n :=
  countrZero64_eq hK (h.congr fun _ hi => getLsbD_setWidth_of_lt t hi)

/-- The recursion over the words of a type. -/
theorem countrZeroRshImpl_eq (more : ℕ) {t : BitVec w} (count : ℤ)
    (h : ZerosBefore t.getLsbD (64 + 64 * more) n) :
    K.countrZeroRshImpl more t count = count + n := by
  induction more generalizing t count n with
  | zero => rw [countrZeroRshImpl, countrZero64_setWidth hK h]
  | succ more ih =>
    rw [countrZeroRshImpl]
    rcases h.split with ⟨hlt, hfirst⟩ | ⟨hempty, hge, hrest⟩
    · rw [countrZero64_setWidth hK hfirst, if_neg (by omega), add_comm]
    · have hshift : ZerosBefore (t >>> 64).getLsbD (64 + 64 * more) (n - 64) := by
        rw [Nat.mul_succ, Nat.add_comm] at hrest
        exact hrest.congr fun i _ => BitVec.getLsbD_ushiftRight t 64 i
      rw [countrZero64_setWidth hK hempty, if_pos Nat.cast_ofNat, ih _ hshift]
      omega

theorem countlZero64_eq {t : BitVec 64} (h : ZerosBefore t.getMsbD 64 n) :
    K.countlZero64 t = n := by
  rw [countlZero64]
  split
  · rename_i hne
    obtain ⟨hlt, hhighest⟩ := h.isHighest hne
    rw [libcppClz64_eq hK hhighest]
    omega
  · rename_i hzero
    rw [h.eq_width_msb (not_not.mp hzero)]
    rfl

/-- The word that a rotation brings down is the highest one. -/
theorem countlZero64_rotl {t : BitVec w} (hw : 64 < w) (h : ZerosBefore t.getMsbD 64 n) :
    K.countlZero64 ((rotl t 64).setWidth 64) = n := by
  apply countlZero64_eq hK
  apply h.congr
  intro i hi
  have hplace : (64 + (i + w - 64)) % w = i := by
    have hsum : 64 + (i + w - 64) = i + w := by omega
    rw [hsum, Nat.add_mod_right, Nat.mod_eq_of_lt (by omega)]
  have hrotate : (t.rotateLeft 64).getMsbD (i + w - 64) = t.getMsbD i := by
    rw [BitVec.getMsbD_rotateLeft, hplace, decide_eq_true (by omega), Bool.true_and]
  have hcount : (64 : BitVec 32).toNat = 64 := rfl
  rw [rotl_eq, hcount, BitVec.getMsbD_setWidth, hrotate, decide_eq_true (by omega), Bool.true_and]

theorem countlZeroRotlImpl_eq (more : ℕ) {t : BitVec w} (hw : 64 < w)
    (hmore : 64 + 64 * more ≤ w) (h : ZerosBefore t.getMsbD (64 + 64 * more) n) :
    K.countlZeroRotlImpl more t = n := by
  induction more generalizing t n with
  | zero => rw [countlZeroRotlImpl, countlZero64_rotl hK hw h]
  | succ more ih =>
    rw [countlZeroRotlImpl]
    rcases h.split with ⟨hlt, hfirst⟩ | ⟨hempty, hge, hrest⟩
    · rw [countlZero64_rotl hK hw hfirst, if_neg (by omega)]
    · have hrotate : ZerosBefore (rotl t 64).getMsbD (64 + 64 * more) (n - 64) := by
        rw [Nat.mul_succ, Nat.add_comm] at hrest
        apply hrest.congr
        intro i hi
        have hcount : (64 : BitVec 32).toNat = 64 := rfl
        rw [rotl_eq, hcount, BitVec.getMsbD_rotateLeft, Nat.mod_eq_of_lt (by omega),
          decide_eq_true (by omega), Bool.true_and]
      rw [countlZero64_rotl hK hw hempty, if_pos Nat.cast_ofNat, ih (by omega) hrotate]
      omega

theorem popcountRshImpl_eq (more : ℕ) (t : BitVec w) :
    K.popcountRshImpl more t = bitCount (64 + 64 * more) t.toNat := by
  have hword (t : BitVec w) : K.libcppPopcount64 (t.setWidth 64) = bitCount 64 t.toNat := by
    rw [libcppPopcount64_eq hK]
    apply congrArg
    apply Finset.sum_congr rfl
    intro i hi
    rw [BitVec.testBit_toNat, BitVec.testBit_toNat,
      getLsbD_setWidth_of_lt t (Finset.mem_range.mp hi)]
  induction more generalizing t with
  | zero => rw [popcountRshImpl, hword]
  | succ more ih =>
    rw [popcountRshImpl, hword, ih, BitVec.toNat_ushiftRight, Nat.mul_succ,
      Nat.add_comm (64 * more) 64, bitCount_split 64 (64 + 64 * more), Nat.cast_add, add_comm]

/-! ## Types of any width -/

end Compilation

/-- The widths of the unsigned types. -/
def IsWidth (w : ℕ) : Prop := w = 8 ∨ w = 16 ∨ w = 32 ∨ w = 64 ∨ w = 128

instance (w : ℕ) : Decidable (IsWidth w) :=
  inferInstanceAs (Decidable (_ ∨ _ ∨ _ ∨ _ ∨ _))

theorem IsWidth.cases (h : IsWidth w) :
    (8 ≤ w ∧ w ≤ 32) ∨ w = 64 ∨ (64 < w ∧ w ≤ 128 ∧ 64 + 64 * (w / 64 - 1) = w) := by
  rcases h with rfl | rfl | rfl | rfl | rfl <;> decide

namespace Compilation

variable {K : Compilation} (hK : K.intrinsics.Correct)

include hK

theorem countrZero_eq (hw : IsWidth w) {t : BitVec w} (h : ZerosBefore t.getLsbD w n) :
    K.countrZero t = n := by
  rw [countrZero]
  split
  · rename_i hne
    have hlowest := h.isLowest hne
    rw [countrZeroDispatch]
    rcases hw.cases with ⟨-, hle⟩ | rfl | ⟨hlt, -, hwords⟩
    · rw [if_pos hle, libcppCtz32_eq hK (hlowest.setWidth (lt_of_lt_of_le hlowest.lt hle))]
    · rw [if_neg (by decide), if_pos rfl, libcppCtz64_eq hK (hlowest.setWidth hlowest.lt)]
    · have hall : ZerosBefore t.getLsbD (64 + 64 * (w / 64 - 1)) n := by rwa [hwords]
      rw [if_neg (by omega), if_neg hlt.ne', countrZeroRshImpl_eq hK _ 0 hall, zero_add]
  · rename_i hzero
    rw [h.eq_width (not_not.mp hzero)]

theorem countlZero_eq (hw : IsWidth w) {t : BitVec w} (h : ZerosBefore t.getMsbD w n) :
    K.countlZero t = n := by
  rw [countlZero]
  split
  · rename_i hne
    obtain ⟨hlt, hhighest⟩ := h.isHighest hne
    rw [countlZeroDispatch]
    rcases hw.cases with ⟨-, hle⟩ | rfl | ⟨hlt, -, hwords⟩
    · rw [if_pos hle, libcppClz32_eq hK (hhighest.setWidth (lt_of_lt_of_le hhighest.lt hle))]
      omega
    · rw [if_neg (by decide), if_pos rfl, libcppClz64_eq hK (hhighest.setWidth hhighest.lt)]
      omega
    · have hall : ZerosBefore t.getMsbD (64 + 64 * (w / 64 - 1)) n := by rwa [hwords]
      rw [if_neg (by omega), if_neg hlt.ne', countlZeroRotlImpl_eq hK _ hlt hwords.le hall]
  · rename_i hzero
    rw [h.eq_width_msb (not_not.mp hzero)]

theorem popcount_eq (hw : IsWidth w) (t : BitVec w) : K.popcount t = bitCount w t.toNat := by
  rw [popcount, popcountDispatch]
  rcases hw.cases with ⟨-, hle⟩ | rfl | ⟨hlt, -, hwords⟩
  · rw [if_pos hle, libcppPopcount32_eq hK, BitVec.toNat_setWidth_of_le hle,
      bitCount_of_lt t.isLt hle]
  · rw [if_neg (by decide), if_pos rfl, libcppPopcount64_eq hK, BitVec.setWidth_eq]
  · rw [if_neg (by omega), if_neg hlt.ne', popcountRshImpl_eq hK, hwords]

/-! ## Powers of two of any width -/

/-- The leading zeros of a value that is not zero, by its highest bit. -/
theorem exists_highest (hw : IsWidth w) {t : BitVec w} (hne : t ≠ 0) :
    ∃ p < w, K.countlZero t = w - 1 - p ∧ (K.bitLog2 t).toNat = p ∧
      2 ^ p ≤ t.toNat ∧ t.toNat < 2 ^ (p + 1) := by
  obtain ⟨n, hn⟩ := exists_zerosBefore t.getMsbD w
  obtain ⟨hlt, hhighest⟩ := hn.isHighest hne
  have hzeros := countlZero_eq hK hw hn
  have hplace : (w : ℤ) - 1 - n = (w - 1 - n : ℕ) := by omega
  have hle : w ≤ 128 := by
    rcases hw with rfl | rfl | rfl | rfl | rfl <;> decide
  refine ⟨w - 1 - n, by omega, by omega, ?_, hhighest.bounds⟩
  rw [bitLog2, hzeros, hplace, BitVec.ofInt_natCast]
  exact MachineInt.toNat_ofNat_of_lt (by omega)

theorem bitWidth_eq (hw : IsWidth w) (t : BitVec w) :
    (K.bitWidth t).toNat = t.toNat.size := by
  rw [bitWidth]
  split
  · rename_i hzero
    rw [hzero]
    exact Nat.size_zero.symm
  · rename_i hne
    obtain ⟨p, hp, -, hlog, hlo, hhi⟩ := exists_highest hK hw hne
    have hle : w ≤ 128 := by
      rcases hw with rfl | rfl | rfl | rfl | rfl <;> decide
    have hone : (1 : BitVec 32).toNat = 1 := rfl
    have hfits : p + 1 < 2 ^ w := lt_of_le_of_lt hp Nat.lt_two_pow_self
    have hsize : t.toNat.size = p + 1 :=
      le_antisymm (Nat.size_le.mpr hhi) (Nat.lt_size.mpr hlo)
    rw [BitVec.toNat_setWidth, BitVec.toNat_add, hlog, hone, hsize,
      Nat.mod_eq_of_lt (show p + 1 < 2 ^ 32 by omega), Nat.mod_eq_of_lt hfits]

theorem bitFloor_eq (hw : IsWidth w) (t : BitVec w) :
    (K.bitFloor t).toNat = if t = 0 then 0 else 2 ^ Nat.log 2 t.toNat := by
  rw [bitFloor]
  split
  · exact BitVec.toNat_zero
  · rename_i hne
    obtain ⟨p, hp, -, hlog, hlo, hhi⟩ := exists_highest hK hw hne
    rw [hlog, BitVec.toNat_setWidth,
      toNat_one_shiftLeft (lt_of_lt_of_le hp (le_promoted w)),
      Nat.mod_eq_of_lt (Nat.pow_lt_pow_right (by decide) hp),
      Nat.log_eq_of_pow_le_of_lt_pow hlo hhi]

theorem ceil2_eq (hw : IsWidth w) {t : BitVec w} (htwo : 2 ≤ t.toNat)
    (hlt : 2 ^ Nat.clog 2 t.toNat < 2 ^ w) :
    (K.ceil2 t).toNat = 2 ^ Nat.clog 2 t.toNat := by
  have hone : (1 : BitVec w).toNat = 1 := by
    apply Nat.mod_eq_of_lt
    rcases hw with rfl | rfl | rfl | rfl | rfl <;> decide
  have hpred : (t - 1).toNat = t.toNat - 1 := by
    rw [BitVec.toNat_sub_of_le (by rw [BitVec.le_def, hone]; omega), hone]
  have hne : t - 1 ≠ 0 := by
    intro hzero
    rw [hzero] at hpred
    have hzero' : (0 : BitVec w).toNat = 0 := BitVec.toNat_zero
    omega
  obtain ⟨p, hp, hzeros, -, hlo, hhi⟩ := exists_highest hK hw hne
  rw [hpred] at hlo hhi
  have hclog : Nat.clog 2 t.toNat = p + 1 := by
    apply le_antisymm
    · exact Nat.clog_le_of_le_pow (by omega)
    · exact (Nat.lt_clog_iff_pow_lt (by decide)).mpr (by omega)
  rw [hclog] at hlt ⊢
  have hp_lt : p + 1 < w := (Nat.pow_lt_pow_iff_right (by decide)).mp hlt
  have hshift : (w : ℤ) - (w - 1 - p) = (p + 1 : ℕ) := by omega
  rw [ceil2, hzeros, hshift]
  split
  · rw [Int.toNat_natCast, toNat_one_shiftLeft hp_lt]
  · rename_i hnarrow
    have hup : ((p + 1 : ℕ) + (32 - (w : ℤ))).toNat = p + 1 + (32 - w) := by omega
    rw [hup, BitVec.toNat_setWidth, BitVec.toNat_ushiftRight, toNat_one_shiftLeft (by omega),
      Nat.shiftRight_eq_div_pow, Nat.pow_add, Nat.mul_div_cancel _ (Nat.two_pow_pos _),
      Nat.mod_eq_of_lt hlt]

theorem bitCeil_eq (hw : IsWidth w) (t : BitVec w) (hlt : 2 ^ Nat.clog 2 t.toNat < 2 ^ w) :
    (K.bitCeil t).toNat = 2 ^ Nat.clog 2 t.toNat := by
  rw [bitCeil]
  split
  · rename_i hsmall
    have hclog : Nat.clog 2 t.toNat = 0 := Nat.clog_of_right_le_one (by omega) 2
    rw [hclog] at hlt ⊢
    exact Nat.mod_eq_of_lt hlt
  · rename_i hlarge
    exact ceil2_eq hK hw (not_lt.mp hlarge) hlt

end Compilation

/-! ## All operations -/

/-- However it is compiled, every operation on an unsigned type is what it is
said to be: the counts are counts of bits, the width and the powers of two are
those of the value, if the type has them, and the rotations are by the count
modulo the width. -/
theorem bit_operations {K : Compilation} (hK : K.intrinsics.Correct) (hw : IsWidth w)
    (t : BitVec w) :
    (∃ n : ℕ, K.countlZero t = n ∧ ZerosBefore t.getMsbD w n) ∧
    (∃ n : ℕ, K.countrZero t = n ∧ ZerosBefore t.getLsbD w n) ∧
    K.popcount t = ∑ i ∈ Finset.range w, ((t.getLsbD i).toNat : ℤ) ∧
    (K.bitWidth t).toNat = t.toNat.size ∧
    (K.bitFloor t).toNat = (if t = 0 then 0 else 2 ^ Nat.log 2 t.toNat) ∧
    (2 ^ Nat.clog 2 t.toNat < 2 ^ w → (K.bitCeil t).toNat = 2 ^ Nat.clog 2 t.toNat) ∧
    ∀ cnt : BitVec 32, rotl t cnt = t.rotateLeft cnt.toNat ∧
      rotr t cnt = t.rotateRight cnt.toNat := by
  refine ⟨?_, ?_, ?_, Compilation.bitWidth_eq hK hw t,
    Compilation.bitFloor_eq hK hw t, Compilation.bitCeil_eq hK hw t, ?_⟩
  · obtain ⟨n, hn⟩ := exists_zerosBefore t.getMsbD w
    exact ⟨n, Compilation.countlZero_eq hK hw hn, hn⟩
  · obtain ⟨n, hn⟩ := exists_zerosBefore t.getLsbD w
    exact ⟨n, Compilation.countrZero_eq hK hw hn, hn⟩
  · rw [Compilation.popcount_eq hK hw, bitCount, Nat.cast_sum]
    apply Finset.sum_congr rfl
    intro i _
    rw [BitVec.testBit_toNat]
  · intro cnt
    exact ⟨rotl_eq t cnt, rotr_eq t cnt⟩

/-- Two words with zeros in between, for a compiler without scans of 64 bits. -/
theorem bit_operations_two_words :
    let K : Compilation :=
      { target := .msvc false false, fallback := false, intrinsics := .ofFallback }
    let t : BitVec 128 := 0x00000000000000050000000000000000
    (∃ n : ℕ, K.countlZero t = n ∧ ZerosBefore t.getMsbD 128 n) ∧
    (∃ n : ℕ, K.countrZero t = n ∧ ZerosBefore t.getLsbD 128 n) ∧
    K.popcount t = ∑ i ∈ Finset.range 128, ((t.getLsbD i).toNat : ℤ) ∧
    (K.bitWidth t).toNat = t.toNat.size ∧
    (K.bitFloor t).toNat = (if t = 0 then 0 else 2 ^ Nat.log 2 t.toNat) ∧
    (2 ^ Nat.clog 2 t.toNat < 2 ^ 128 → (K.bitCeil t).toNat = 2 ^ Nat.clog 2 t.toNat) ∧
    ∀ cnt : BitVec 32, rotl t cnt = t.rotateLeft cnt.toNat ∧
      rotr t cnt = t.rotateRight cnt.toNat :=
  bit_operations Intrinsics.ofFallback_correct (by decide) _

end Libhipcxx.Bit
