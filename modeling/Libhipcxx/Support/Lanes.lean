import Mathlib.Data.Nat.Notation
import Mathlib.Logic.Basic

/-!
# Lanes of a word

A lane is a range of bits of a word, from a lowest position up.  A mask selects
it; replacing it keeps every other bit.
-/

namespace Libhipcxx.Lanes

variable {N n : ℕ}

/-- The `n` bits of `w` from position `o` up. -/
def lane (o n : ℕ) (w : BitVec N) : BitVec n := w.extractLsb' o n

def laneMask (N o n : ℕ) : BitVec N := (BitVec.allOnes n).setWidth N <<< o

/-- `w` with `v` in the lane at position `o`. -/
def setLane (o : ℕ) (v : BitVec n) (w : BitVec N) : BitVec N :=
  (w &&& ~~~laneMask N o n) ||| v.setWidth N <<< o

/-- The bit is inside the lane. -/
def InLane (o n i : ℕ) : Prop := o ≤ i ∧ i < o + n

instance (o n i : ℕ) : Decidable (InLane o n i) :=
  inferInstanceAs (Decidable (_ ∧ _))

theorem getLsbD_lane (o n : ℕ) (w : BitVec N) (i : ℕ) :
    (lane o n w).getLsbD i = (decide (i < n) && w.getLsbD (o + i)) :=
  BitVec.getLsbD_extractLsb' o n w i

theorem getLsbD_laneMask {o n i : ℕ} (hi : i < N) :
    (laneMask N o n).getLsbD i = decide (InLane o n i) := by
  rw [laneMask, BitVec.getLsbD_shiftLeft, BitVec.getLsbD_setWidth,
    BitVec.getLsbD_allOnes, Bool.eq_iff_iff, decide_eq_true_iff]
  simp only [Bool.and_eq_true, Bool.not_eq_true', decide_eq_true_eq,
    decide_eq_false_iff_not, InLane]
  omega

/-- The bits of a word whose lane has been replaced. -/
theorem getLsbD_setLane (o : ℕ) (v : BitVec n) (w : BitVec N) {i : ℕ}
    (hi : i < N) :
    (setLane o v w).getLsbD i =
      if InLane o n i then v.getLsbD (i - o) else w.getLsbD i := by
  rw [setLane, BitVec.getLsbD_or, BitVec.getLsbD_and, BitVec.getLsbD_not,
    getLsbD_laneMask hi, BitVec.getLsbD_shiftLeft, BitVec.getLsbD_setWidth]
  by_cases hlane : InLane o n i
  · have hlow : ¬ i < o := Nat.not_lt.mpr hlane.1
    have hsub : i - o < N := by omega
    simp [hlane, hlow, hsub, hi]
  · by_cases hlow : i < o
    · simp [hlane, hlow, hi]
    · have hout : v.getLsbD (i - o) = false := by
        apply BitVec.getLsbD_of_ge
        rw [InLane] at hlane
        omega
      simp [hlane, hi, hout]

theorem lane_setLane {o : ℕ} (h : o + n ≤ N) (v : BitVec n) (w : BitVec N) :
    lane o n (setLane o v w) = v := by
  apply BitVec.eq_of_getLsbD_eq
  intro i hi
  have hlane : InLane o n (o + i) := ⟨Nat.le_add_right _ _, by omega⟩
  rw [getLsbD_lane, getLsbD_setLane o v w (by omega), if_pos hlane,
    Nat.add_sub_cancel_left]
  simp [hi]

/-- Masking and shifting down reads the lane. -/
theorem and_laneMask_shiftRight {o : ℕ} (h : o + n ≤ N) (w : BitVec N) :
    (w &&& laneMask N o n) >>> o = (lane o n w).setWidth N := by
  apply BitVec.eq_of_getLsbD_eq
  intro i hi
  rw [BitVec.getLsbD_ushiftRight, BitVec.getLsbD_and, BitVec.getLsbD_setWidth,
    getLsbD_lane]
  by_cases hn : i < n
  · have hlane : InLane o n (o + i) := ⟨Nat.le_add_right _ _, by omega⟩
    rw [getLsbD_laneMask (by omega)]
    simp [hi, hn, hlane]
  · have hout : (laneMask N o n).getLsbD (o + i) = false := by
      by_cases hN : o + i < N
      · have hlane : ¬ InLane o n (o + i) := by
          rw [InLane]
          omega
        rw [getLsbD_laneMask hN]
        simp [hlane]
      · exact BitVec.getLsbD_of_ge _ _ (by omega)
    simp [hn, hout]

/-- A value shifted up to its lane. -/
theorem lane_shiftLeft {o : ℕ} (h : o + n ≤ N) (v : BitVec N) :
    lane o n (v <<< o) = v.setWidth n := by
  apply BitVec.eq_of_getLsbD_eq
  intro i hi
  have hlow : ¬ o + i < o := by omega
  have hN : o + i < N := by omega
  rw [getLsbD_lane, BitVec.getLsbD_shiftLeft, BitVec.getLsbD_setWidth]
  simp [hi, hN]

end Libhipcxx.Lanes
