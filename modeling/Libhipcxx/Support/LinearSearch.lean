import Mathlib.Algebra.Order.BigOperators.Group.Finset
import Mathlib.Order.Interval.Finset.Nat
import Mathlib.Algebra.BigOperators.Intervals

/-!
# Linear search for a place

Arrivals start at slots of their choice and go from one slot to the next until
they come to one that has room.  If no more arrivals start from any slot on
than the slots from there on have room for, nobody comes to the end.  The order
of the arrivals and of their steps does not matter.
-/

namespace Libhipcxx.LinearSearch

open Finset

/-- Places taken from a slot on. -/
def placed (slots : ℕ) (taken : ℕ → ℕ) (j : ℕ) : ℕ := ∑ k ∈ Ico j slots, taken k

/-- Those who were placed from a slot on or are searching there started there,
unless they have passed a slot without room. -/
structure Account (slots : ℕ) (capacity taken searching starts : ℕ → ℕ) : Prop where
  le_capacity : ∀ k, taken k ≤ capacity k
  all : placed slots taken 0 + searching 0 = starts 0
  passed : ∀ j, taken j = capacity j ∨
    placed slots taken (j + 1) + searching (j + 1) ≤ starts (j + 1)

variable {slots : ℕ} {capacity taken taken' searching searching' starts starts' : ℕ → ℕ}

theorem placed_of_lt {j : ℕ} (h : j < slots) (taken : ℕ → ℕ) :
    placed slots taken j = taken j + placed slots taken (j + 1) :=
  sum_eq_sum_Ico_succ_bot h taken

/-- One more place is taken in each range that has the slot. -/
theorem placed_take {m : ℕ} (hm : m < slots)
    (htaken : ∀ k, taken' k = taken k + if k = m then 1 else 0) (j : ℕ) :
    placed slots taken' j = placed slots taken j + if j ≤ m then 1 else 0 := by
  rw [placed, placed]
  simp only [htaken]
  rw [sum_add_distrib, sum_ite_eq']
  simp only [mem_Ico, hm, and_true]

namespace Account

theorem start (capacity : ℕ → ℕ) :
    Account slots capacity (fun _ => 0) (fun _ => 0) fun _ => 0 := by
  have hzero (j : ℕ) : placed slots (fun _ => 0) j = 0 := sum_eq_zero fun _ _ => rfl
  exact ⟨fun _ => Nat.zero_le _, by rw [hzero], fun j => Or.inr (by rw [hzero])⟩

/-- An arrival begins its search. -/
theorem begin {first : ℕ} (h : Account slots capacity taken searching starts)
    (hsearching : ∀ j, searching' j = searching j + if j ≤ first then 1 else 0)
    (hstarts : ∀ j, starts' j = starts j + if j ≤ first then 1 else 0) :
    Account slots capacity taken searching' starts' := by
  refine ⟨h.le_capacity, ?_, fun j => ?_⟩
  · rw [hsearching, hstarts, ← Nat.add_assoc, h.all]
  · rcases h.passed j with hfull | hle
    · exact Or.inl hfull
    · rw [hsearching, hstarts, ← Nat.add_assoc]
      exact Or.inr (Nat.add_le_add_right hle _)

/-- An arrival goes on from a slot without room. -/
theorem advance {m : ℕ} (h : Account slots capacity taken searching starts)
    (hfull : taken m = capacity m)
    (hsearching : ∀ j, searching' j = searching j + if j = m + 1 then 1 else 0) :
    Account slots capacity taken searching' starts := by
  refine ⟨h.le_capacity, ?_, fun j => ?_⟩
  · rw [hsearching, if_neg (Nat.succ_ne_zero m).symm, Nat.add_zero, h.all]
  · by_cases hj : j = m
    · rw [hj]
      exact Or.inl hfull
    · rw [hsearching, if_neg fun heq => hj (Nat.succ.inj heq), Nat.add_zero]
      exact h.passed j

/-- An arrival takes a place. -/
theorem take {m : ℕ} (h : Account slots capacity taken searching starts) (hm : m < slots)
    (hroom : taken m < capacity m)
    (htaken : ∀ k, taken' k = taken k + if k = m then 1 else 0)
    (hsearching : ∀ j, searching' j + (if j ≤ m then 1 else 0) = searching j) :
    Account slots capacity taken' searching' starts := by
  have hsum (j : ℕ) : placed slots taken' j + searching' j =
      placed slots taken j + searching j := by
    have hplaced := placed_take hm htaken j
    have hmove := hsearching j
    omega
  refine ⟨fun k => ?_, ?_, fun j => ?_⟩
  · have hle := h.le_capacity k
    rw [htaken]
    split_ifs with hk
    · rw [hk]
      exact hroom
    · exact hle
  · rw [hsum, h.all]
  · rcases h.passed j with hfull | hle
    · have hne : j ≠ m := by
        rintro rfl
        exact hroom.ne hfull
      rw [htaken, if_neg hne, Nat.add_zero]
      exact Or.inl hfull
    · rw [hsum]
      exact Or.inr hle

/-- Who comes to the last slot finds room there. -/
theorem room (h : Account slots capacity taken searching starts)
    (hantitone : ∀ j, searching (j + 1) ≤ searching j)
    (hstarts : ∀ j < slots, starts j ≤ placed slots capacity j) {last : ℕ}
    (hlast : last + 1 = slots) (hsearching : 0 < searching last) :
    taken last < capacity last := by
  by_contra hnot
  have hfull_last : taken last = capacity last := le_antisymm (h.le_capacity last) (not_lt.mp hnot)
  -- From the last slot down, a full slot has let somebody pass from the one before it.
  have hfull : ∀ i, i ≤ last → placed slots taken (last - i) = placed slots capacity (last - i) ∧
      0 < searching (last - i) := by
    intro i hi
    induction i with
    | zero =>
      have hend (f : ℕ → ℕ) : placed slots f (last + 1) = 0 := by
        rw [hlast, placed, Ico_self, sum_empty]
      have hlt : last < slots := by omega
      rw [Nat.sub_zero, placed_of_lt hlt taken, placed_of_lt hlt capacity, hend, hend, hfull_last]
      exact ⟨rfl, hsearching⟩
    | succ i ih =>
      obtain ⟨hplaced, hpos⟩ := ih (by omega)
      have hnext : last - i = last - (i + 1) + 1 := by omega
      have hbound := hstarts (last - i) (by omega)
      have hle := hantitone (last - (i + 1))
      rw [hnext] at hplaced hpos hbound
      have hlt : last - (i + 1) < slots := by omega
      rw [placed_of_lt hlt taken, placed_of_lt hlt capacity, hplaced]
      refine ⟨?_, by omega⟩
      rcases h.passed (last - (i + 1)) with hslot | hfew
      · rw [hslot]
      · omega
  obtain ⟨hplaced, hpos⟩ := hfull last le_rfl
  have hbound := hstarts 0 (by omega)
  have hall := h.all
  rw [Nat.sub_self] at hplaced hpos
  omega

/-- If as many have started as there is room for and none is searching, there is
no room left. -/
theorem full (h : Account slots capacity taken searching starts)
    (hall : starts 0 = placed slots capacity 0) (hnone : searching 0 = 0) :
    ∀ k < slots, taken k = capacity k := by
  have hsum : placed slots taken 0 = placed slots capacity 0 := by
    have htotal := h.all
    omega
  intro k hk
  have hmem : k ∈ Ico 0 slots := mem_Ico.mpr ⟨Nat.zero_le k, hk⟩
  exact (sum_eq_sum_iff_of_le fun i _ => h.le_capacity i).mp hsum k hmem

end Account

end Libhipcxx.LinearSearch
