import Mathlib.Algebra.Order.Ring.Nat
import Mathlib.Data.Nat.Find
import Mathlib.Tactic.SplitIfs

/-!
# Tournaments

The entrants of a round come to slots, two to each; where their number is odd,
one comes to the last slot alone.  The last to come to a slot enters the next
round, at the slot of half the number, until a round has one entrant.

An account of a tournament says how many have come to each slot, and how many
are on their way to each slot of a later round.
-/

namespace Libhipcxx.Tournament

/-- How many enter a round. -/
def width (n : ℕ) : ℕ → ℕ
  | 0 => n
  | r + 1 => width n r / 2 + width n r % 2

/-- How many come to a slot: none beyond the last slot of the round. -/
def capacity (n r k : ℕ) : ℕ := min 2 (width n r - 2 * k)

variable {n r k : ℕ}

@[simp] theorem width_zero (n : ℕ) : width n 0 = n := rfl

theorem width_succ (n r : ℕ) : width n (r + 1) = width n r / 2 + width n r % 2 := rfl

theorem width_pos (hn : 0 < n) (r : ℕ) : 0 < width n r := by
  induction r with
  | zero => exact hn
  | succ r ih =>
    rw [width_succ]
    omega

theorem width_succ_le (n r : ℕ) : width n (r + 1) ≤ width n r := by
  rw [width_succ]
  omega

/-- A smaller tournament has smaller rounds. -/
theorem width_mono {m : ℕ} (h : m ≤ n) (r : ℕ) : width m r ≤ width n r := by
  induction r with
  | zero => exact h
  | succ r ih =>
    rw [width_succ, width_succ]
    omega

theorem one_lt_width (h : 1 < width n (r + 1)) : 1 < width n r :=
  lt_of_lt_of_le h (width_succ_le n r)

/-- After enough rounds there are few entrants left. -/
theorem width_le {m : ℕ} (h : n ≤ m * 2 ^ r) : width n r ≤ m := by
  induction r generalizing m with
  | zero => rwa [pow_zero, Nat.mul_one] at h
  | succ r ih =>
    have hdouble : width n r ≤ 2 * m := by
      apply ih
      rwa [pow_succ, ← Nat.mul_assoc, Nat.mul_right_comm, Nat.mul_comm m 2] at h
    rw [width_succ]
    omega

theorem div_le_width (n r : ℕ) : n / 2 ^ r ≤ width n r ∧ width n r ≤ n / 2 ^ r + 1 := by
  induction r with
  | zero =>
    rw [pow_zero, Nat.div_one, width_zero]
    omega
  | succ r ih =>
    rw [width_succ, pow_succ, ← Nat.div_div_eq_div_mul]
    omega

/-! ## Slots -/

theorem capacity_pos_iff : 0 < capacity n r k ↔ k < width n (r + 1) := by
  rw [capacity, width_succ]
  omega

theorem capacity_eq_zero (h : width n (r + 1) ≤ k) : capacity n r k = 0 := by
  rw [width_succ] at h
  rw [capacity]
  omega

theorem capacity_le_two (n r k : ℕ) : capacity n r k ≤ 2 := Nat.min_le_left _ _

/-- A slot is found by halving the number of entrants. -/
theorem slot_le (h : k < width n (r + 1)) : k ≤ n / 2 ^ (r + 1) := by
  have hwidth := div_le_width n r
  rw [width_succ] at h
  rw [pow_succ, ← Nat.div_div_eq_div_mul]
  omega

/-- The slot that one comes to alone. -/
theorem capacity_eq_one_iff (h : k < width n (r + 1)) :
    capacity n r k = 1 ↔ k = n / 2 ^ (r + 1) ∧ width n r % 2 = 1 := by
  have hwidth := div_le_width n r
  rw [width_succ] at h
  rw [capacity, pow_succ, ← Nat.div_div_eq_div_mul]
  omega

/-- The place of a slot in the first round that leads to it is one of the first
round. -/
theorem place_lt (h : k < width n (r + 1)) : k * 2 ^ r < width n 1 := by
  induction r generalizing k with
  | zero => rwa [pow_zero, Nat.mul_one]
  | succ r ih =>
    have hdouble : 2 * k < width n (r + 1) := by
      rw [width_succ] at h
      omega
    rw [pow_succ, Nat.mul_comm (2 ^ r) 2, ← Nat.mul_assoc, Nat.mul_comm k 2]
    exact ih hdouble

/-- As many come to a slot as there are slots that lead to it. -/
theorem capacity_succ (n r k : ℕ) :
    capacity n (r + 1) k = (if 0 < capacity n r (2 * k) then 1 else 0) +
      (if 0 < capacity n r (2 * k + 1) then 1 else 0) := by
  simp only [capacity_pos_iff]
  rw [capacity]
  split_ifs <;> omega

/-! ## Accounts -/

/-- Whether a slot has sent its winner on. -/
def won (n : ℕ) (taken : ℕ → ℕ → ℕ) (r k : ℕ) : ℕ :=
  if 0 < capacity n r k ∧ taken r k = capacity n r k then 1 else 0

/-- Those who have come to a slot, and those on their way to it, are the winners
of the slots that lead to it. -/
structure Account (n : ℕ) (taken waiting : ℕ → ℕ → ℕ) : Prop where
  le_capacity : ∀ r k, taken r k ≤ capacity n r k
  balance : ∀ r k, 1 < width n (r + 1) → taken (r + 1) k + waiting (r + 1) k =
    won n taken r (2 * k) + won n taken r (2 * k + 1)

/-- All have come to the slots of the round. -/
def Full (n : ℕ) (taken : ℕ → ℕ → ℕ) (r : ℕ) : Prop := ∀ k, taken r k = capacity n r k

variable {taken taken' waiting waiting' : ℕ → ℕ → ℕ}

theorem account_start (n : ℕ) : Account n (fun _ _ => 0) fun _ _ => 0 := by
  constructor
  · exact fun _ _ => Nat.zero_le _
  · intro r k _
    rw [won, won, if_neg (fun h => h.1.ne h.2), if_neg (fun h => h.1.ne h.2)]

theorem won_le (n : ℕ) (taken : ℕ → ℕ → ℕ) (r k : ℕ) :
    won n taken r k ≤ if 0 < capacity n r k then 1 else 0 := by
  rw [won]
  split_ifs with hwon hcapacity
  · exact le_rfl
  · exact absurd hwon.1 hcapacity
  · exact Nat.zero_le _
  · exact Nat.zero_le _

theorem won_eq_one_iff : won n taken r k = 1 ↔
    0 < capacity n r k ∧ taken r k = capacity n r k := by
  by_cases hwon : 0 < capacity n r k ∧ taken r k = capacity n r k
  · rw [won, if_pos hwon]
    exact iff_of_true rfl hwon
  · rw [won, if_neg hwon]
    exact iff_of_false Nat.zero_ne_one hwon

/-- A slot sends its winner on when the last comes to it. -/
theorem won_take (hroom : taken r k < capacity n r k)
    (htaken : ∀ r' k', taken' r' k' = taken r' k' + if r' = r ∧ k' = k then 1 else 0)
    (r' m : ℕ) : won n taken' r' m = won n taken r' m +
      if r' = r ∧ m = k ∧ taken r k + 1 = capacity n r k then 1 else 0 := by
  rw [won, won, htaken]
  by_cases hslot : r' = r ∧ m = k
  · obtain ⟨rfl, rfl⟩ := hslot
    split_ifs <;> omega
  · have hother : ¬ (r' = r ∧ m = k ∧ taken r k + 1 = capacity n r k) :=
      fun hall => hslot ⟨hall.1, hall.2.1⟩
    rw [if_neg hslot, if_neg hother, Nat.add_zero, Nat.add_zero]

namespace Account

/-- No more are on their way than the slot has room for. -/
theorem le_room (h : Account n taken waiting) (hwidth : 1 < width n (r + 1)) (k : ℕ) :
    taken (r + 1) k + waiting (r + 1) k ≤ capacity n (r + 1) k := by
  rw [h.balance r k hwidth, capacity_succ]
  exact Nat.add_le_add (won_le n taken r _) (won_le n taken r _)

/-- Only a full round fills the next one. -/
theorem full_of_full_succ (h : Account n taken waiting) (hwidth : 1 < width n (r + 1))
    (hfull : Full n taken (r + 1)) : Full n taken r := by
  have hwon (k : ℕ) : (0 < capacity n r (2 * k) → won n taken r (2 * k) = 1) ∧
      (0 < capacity n r (2 * k + 1) → won n taken r (2 * k + 1) = 1) := by
    have hbalance := h.balance r k hwidth
    have hcapacity := capacity_succ n r k
    have hfirst := won_le n taken r (2 * k)
    have hsecond := won_le n taken r (2 * k + 1)
    rw [hfull k] at hbalance
    split_ifs at hcapacity hfirst hsecond <;> omega
  intro m
  by_cases hcapacity : 0 < capacity n r m
  · obtain ⟨k, rfl | rfl⟩ : ∃ k, m = 2 * k ∨ m = 2 * k + 1 := ⟨m / 2, by omega⟩
    · exact (won_eq_one_iff.mp ((hwon k).1 hcapacity)).2
    · exact (won_eq_one_iff.mp ((hwon k).2 hcapacity)).2
  · have hle := h.le_capacity r m
    omega

theorem full_of_full {r' : ℕ} (h : Account n taken waiting) (hwidth : 1 < width n r')
    (hle : r ≤ r') (hfull : Full n taken r') : Full n taken r := by
  induction hle with
  | refl => exact hfull
  | step _ ih => exact ih (one_lt_width hwidth) (h.full_of_full_succ hwidth hfull)

/-- With nobody on the way, a full first round fills all others. -/
theorem full_of_full_zero (h : Account n taken waiting) (hnone : ∀ r k, waiting (r + 1) k = 0)
    (hwidth : 1 < width n r) (hfull : Full n taken 0) : Full n taken r := by
  induction r with
  | zero => exact hfull
  | succ r ih =>
    have hbefore := ih (one_lt_width hwidth)
    intro k
    have hbalance := h.balance r k hwidth
    rw [hnone r k, Nat.add_zero, won, won] at hbalance
    rw [hbalance, capacity_succ]
    simp only [hbefore _, and_true]

/-- A round with one slot is full when that slot is. -/
theorem full_iff_of_root (h : Account n taken waiting) (hroot : width n (r + 1) = 1) :
    Full n taken r ↔ won n taken r 0 = 1 := by
  have hcapacity : 0 < capacity n r 0 := capacity_pos_iff.mpr (by omega)
  rw [won_eq_one_iff, and_iff_right hcapacity]
  constructor
  · exact fun hfull => hfull 0
  · intro hzero k
    by_cases hk : k = 0
    · rw [hk, hzero]
    · have hnone : capacity n r k = 0 := capacity_eq_zero (by omega)
      have hle := h.le_capacity r k
      omega

/-- One comes to a slot; the last to come is then on the way to the next round. -/
theorem take (h : Account n taken waiting) (hroom : taken r k < capacity n r k)
    (htaken : ∀ r' k', taken' r' k' = taken r' k' + if r' = r ∧ k' = k then 1 else 0)
    (hwaiting : ∀ r' k', 1 < width n (r' + 1) →
      waiting' (r' + 1) k' + (if r' + 1 = r ∧ k' = k then 1 else 0) =
        waiting (r' + 1) k' +
          if r' = r ∧ k' = k / 2 ∧ taken r k + 1 = capacity n r k then 1 else 0) :
    Account n taken' waiting' := by
  have hwon := won_take hroom htaken
  constructor
  · intro r' k'
    have hle := h.le_capacity r' k'
    rw [htaken]
    split_ifs with hslot
    · obtain ⟨rfl, rfl⟩ := hslot
      exact hroom
    · exact hle
  · intro r' k' hwidth
    have hbalance := h.balance r' k' hwidth
    have hmove := hwaiting r' k' hwidth
    have hhalf : (if r' = r ∧ 2 * k' = k ∧ taken r k + 1 = capacity n r k then 1 else 0) +
        (if r' = r ∧ 2 * k' + 1 = k ∧ taken r k + 1 = capacity n r k then 1 else 0) =
        if r' = r ∧ k' = k / 2 ∧ taken r k + 1 = capacity n r k then 1 else 0 := by
      split_ifs <;> omega
    rw [htaken, hwon, hwon]
    omega

/-- Nothing is on its way elsewhere than before. -/
theorem congr_waiting (h : Account n taken waiting)
    (hwaiting : ∀ r k, waiting' (r + 1) k = waiting (r + 1) k) : Account n taken waiting' :=
  ⟨h.le_capacity, fun r k hwidth => by rw [hwaiting, h.balance r k hwidth]⟩

end Account

/-- Some round is the last one. -/
theorem exists_root (hn : 1 < n) : ∃ r, 1 < width n r ∧ width n (r + 1) = 1 := by
  have hend : ∃ r, ¬ 1 < width n r := by
    refine ⟨n, not_lt.mpr (width_le ?_)⟩
    rw [Nat.one_mul]
    exact Nat.lt_two_pow_self.le
  have hfind := Nat.find_spec hend
  have hzero : Nat.find hend ≠ 0 := by
    intro hzero
    rw [hzero] at hfind
    exact hfind hn
  obtain ⟨r, hr⟩ := Nat.exists_eq_add_one_of_ne_zero hzero
  have hlt : r < Nat.find hend := by
    rw [hr]
    exact Nat.lt_succ_self r
  have hbefore := Nat.find_min hend hlt
  have hpos := width_pos (Nat.zero_lt_of_lt hn) (r + 1)
  rw [hr] at hfind
  exact ⟨r, not_not.mp hbefore, by omega⟩

/-- There is only one last round. -/
theorem root_unique {r r' : ℕ} (h : 1 < width n r) (hroot : width n (r' + 1) = 1) : r ≤ r' := by
  by_contra hlt
  have hmono : width n r ≤ width n (r' + 1) := by
    have hle : r' + 1 ≤ r := Nat.lt_of_not_le hlt
    clear h hroot hlt
    induction hle with
    | refl => exact le_rfl
    | step _ ih => exact (width_succ_le n _).trans ih
  omega

end Libhipcxx.Tournament
