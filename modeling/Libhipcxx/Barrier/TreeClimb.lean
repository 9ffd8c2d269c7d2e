import Libhipcxx.Barrier.Tree

/-!
# Climbs of the tree barrier

A climb in round `r` stands at a node `k * 2 ^ r`, with `k` a slot of round `r`
of the tournament of the expected count.  The ticket of the last node is taken
by one arrival alone where the number of entrants is odd.  A compare-exchange
takes a place of the slot, or finds that none is left, or is to be made again
because one of two places is left.
-/

namespace Libhipcxx.Barrier.Tree

open Tournament

/-! ## The mask -/

/-- The rounds of up to `2 ^ 32` arrivals are rounds whose shift is defined. -/
theorem round_lt {n r : ℕ} (hle : n ≤ 2 ^ 32) (hwidth : 1 < width n r) : r < 32 := by
  by_contra hr
  have hpow : 2 ^ 32 ≤ 2 ^ r := Nat.pow_le_pow_right Nat.two_pos (not_lt.mp hr)
  have hone : width n r ≤ 1 := by
    apply width_le
    rw [Nat.one_mul]
    exact hle.trans hpow
  exact absurd hwidth (not_lt.mpr hone)

theorem getLsbD_mask {i : ℕ} (hi : i < 32) (r : ℕ) :
    ((~~~((1 : BitVec 32) <<< r)).signExtend 64).getLsbD i = !decide (i = r) := by
  have hone : (1 : BitVec 32) = 1#32 := rfl
  have hwide : i < 64 := by omega
  rw [BitVec.getLsbD_signExtend, if_pos hi, BitVec.getLsbD_not, BitVec.getLsbD_shiftLeft, hone,
    BitVec.getLsbD_one]
  simp only [hi, hwide, decide_true, Bool.true_and]
  by_cases hlt : i < r
  · rw [decide_eq_true hlt, decide_eq_false hlt.ne, Bool.not_true, Bool.false_and]
  · have hiff : i - r = 0 ↔ i = r := by omega
    simp only [hlt, hiff, decide_false, Bool.not_false, Bool.true_and, decide_true, Nat.reduceLT]

/-- A node of a round goes to the node of half the slot. -/
theorem clearRound_mul {k r : ℕ} (hr : r < 32) (hx : k * 2 ^ r < 2 ^ 32) :
    clearRound (k * 2 ^ r) r = some (k / 2 * 2 ^ (r + 1)) := by
  rw [clearRound, if_pos hr]
  congr 1
  apply Nat.eq_of_testBit_eq
  intro i
  rw [BitVec.testBit_toNat, BitVec.getLsbD_and, BitVec.getLsbD_ofNat, Nat.testBit_mul_two_pow,
    Nat.testBit_mul_two_pow, Nat.testBit_div_two]
  by_cases hi : i < 32
  · have hwide : i < 64 := by omega
    rw [getLsbD_mask hi, decide_eq_true hwide, Bool.true_and]
    rcases lt_trichotomy i r with hlt | heq | hgt
    · have hbelow : ¬ r ≤ i := not_le.mpr hlt
      have hbelow' : ¬ r + 1 ≤ i := by omega
      rw [decide_eq_false hbelow, decide_eq_false hbelow', Bool.false_and, Bool.false_and,
        Bool.false_and]
    · have hbelow' : ¬ r + 1 ≤ i := by omega
      rw [decide_eq_true heq, decide_eq_false hbelow', Bool.not_true, Bool.and_false,
        Bool.false_and]
    · have hindex : i - (r + 1) + 1 = i - r := by omega
      rw [decide_eq_true hgt.le, decide_eq_true (Nat.succ_le_of_lt hgt), decide_eq_false hgt.ne',
        hindex, Bool.not_false, Bool.and_true]
  · -- Beyond the `int` the number has no bits, so the mask does not matter.
    have hbit : (k * 2 ^ r).testBit i = false := by
      apply Nat.testBit_lt_two_pow
      exact hx.trans_le (Nat.pow_le_pow_right Nat.two_pos (not_lt.mp hi))
    have hindex : i - (r + 1) + 1 = i - r := by omega
    rw [Nat.testBit_mul_two_pow, decide_eq_true (p := r ≤ i) (by omega), Bool.true_and] at hbit
    rw [hindex, hbit, Bool.and_false, Bool.and_false, Bool.and_false, Bool.false_and]

/-! ## Where a climb stands -/

/-- The climb at slot `k` of round `r`. -/
def standing (n : ℕ) (oldPhase : Phase) (r k : ℕ) : Climb where
  oldPhase := oldPhase
  round := r
  current := k * 2 ^ r
  currentExpected := width n r
  lastNode := n / 2 ^ (r + 1) * 2 ^ r

/-- A slot of a round that has several entrants. -/
structure Slot (n r k : ℕ) : Prop where
  contested : 1 < width n r
  lt_width : k < width n (r + 1)

variable {n r k : ℕ} {oldPhase : Phase}

@[simp] theorem standing_oldPhase : (standing n oldPhase r k).oldPhase = oldPhase := rfl

@[simp] theorem standing_halfStep : (standing n oldPhase r k).halfStep = oldPhase + 1 := rfl

@[simp] theorem standing_fullStep : (standing n oldPhase r k).fullStep = oldPhase + 2 := rfl

theorem width_one (n : ℕ) : width n 1 = (n + 1) / 2 := by
  rw [width_succ, width_zero]
  omega

theorem Slot.capacity_pos (h : Slot n r k) : 0 < capacity n r k :=
  capacity_pos_iff.mpr h.lt_width

theorem Slot.inRange (hle : n ≤ 2 ^ 32) (h : Slot n r k) : (standing n oldPhase r k).InRange n := by
  constructor
  · rw [← width_one]
    exact place_lt h.lt_width
  · have hround := round_lt hle h.contested
    exact hround.trans (by decide)

/-- The ticket that one arrival takes alone. -/
theorem Slot.alone_iff (h : Slot n r k) :
    ((standing n oldPhase r k).current = (standing n oldPhase r k).lastNode ∧
      (standing n oldPhase r k).currentExpected % 2 = 1) ↔ capacity n r k = 1 := by
  rw [capacity_eq_one_iff h.lt_width]
  apply and_congr_left'
  exact Nat.mul_left_inj (Nat.two_pow_pos r).ne'

/-- The assert at the head of the inner loop holds in a slot. -/
theorem Slot.le_lastNode (h : Slot n r k) (oldPhase : Phase) :
    (standing n oldPhase r k).current ≤ (standing n oldPhase r k).lastNode :=
  Nat.mul_le_mul_right _ (slot_le h.lt_width)

theorem enter_eq {c : Climb} (hround : c.round ≤ 63) :
    c.enter = if c.currentExpected = 1 then .returns true else c.search :=
  if_neg (not_lt.mpr hround)

/-- A search that comes to a slot stands there. -/
theorem Slot.search (h : Slot n r k) (oldPhase : Phase) {current : ℕ}
    (hcurrent : (if r = 0 then startIndex (width n r) current else current) = k * 2 ^ r) :
    Climb.search ⟨oldPhase, r, current, width n r, n / 2 ^ (r + 1) * 2 ^ r⟩ =
      .attempt (standing n oldPhase r k) := by
  have hle := h.le_lastNode oldPhase
  simp only [standing] at hle
  simp only [Climb.search, hcurrent]
  rw [if_pos hle, standing]

theorem enter_first {favorite : ℕ} (h : Slot n 0 (startIndex n favorite)) :
    Climb.enter ⟨oldPhase, 0, favorite, n, n / 2⟩ =
      .attempt (standing n oldPhase 0 (startIndex n favorite)) := by
  have hn : n ≠ 1 := h.contested.ne'
  have hfirst : (if 0 = 0 then startIndex (width n 0) favorite else favorite) =
      startIndex n favorite * 2 ^ 0 := by
    rw [if_pos rfl, width_zero, pow_zero, Nat.mul_one]
  have hsearch := h.search oldPhase hfirst
  rw [width_zero, zero_add, pow_one, pow_zero, Nat.mul_one] at hsearch
  rw [enter_eq (Nat.zero_le 63), if_neg hn, hsearch]

theorem advance_first (h : Slot n 0 (k + 1)) :
    (standing n oldPhase 0 k).advance (oldPhase + 2) = .attempt (standing n oldPhase 0 (k + 1)) := by
  have hstart : startIndex n (k + 1) = k + 1 := by
    have hlt := h.lt_width
    have hcontested := h.contested
    rw [width_one] at hlt
    rw [width_zero] at hcontested
    rw [startIndex, if_neg (by omega)]
  have hfirst : (if 0 = 0 then startIndex (width n 0) (k + 1) else k + 1) = (k + 1) * 2 ^ 0 := by
    rw [if_pos rfl, width_zero, hstart, pow_zero, Nat.mul_one]
  have hsearch := h.search oldPhase hfirst
  rw [Climb.advance, if_pos ⟨rfl, rfl⟩]
  simp only [standing, pow_zero, Nat.mul_one] at hsearch ⊢
  exact hsearch

theorem Slot.up (h : Slot n r k) (hwidth : width n (r + 1) ≠ 1) : Slot n (r + 1) (k / 2) := by
  have hlt := h.lt_width
  constructor
  · omega
  · rw [width_succ]
    omega

/-- The winner of a slot goes to the next round, or has won the last one. -/
theorem Slot.next (hle : n ≤ 2 ^ 32) (h : Slot n r k) :
    (standing n oldPhase r k).next = if width n (r + 1) = 1 then .returns true
      else .attempt (standing n oldPhase (r + 1) (k / 2)) := by
  have hround := round_lt hle h.contested
  have hlast : n / 2 ^ (r + 1) * 2 ^ r < 2 ^ 32 := by
    have hmul := Nat.div_mul_le_self n (2 ^ (r + 1))
    have hpos := Nat.two_pow_pos r
    rw [pow_succ, ← Nat.mul_assoc] at hmul
    rw [pow_succ]
    omega
  have hcurrent : k * 2 ^ r < 2 ^ 32 := (h.le_lastNode oldPhase).trans_lt hlast
  have hhalf : n / 2 ^ (r + 1) / 2 = n / 2 ^ (r + 1 + 1) := Nat.div_div_eq_div_mul _ _ _
  have hnext : (standing n oldPhase r k).next = Climb.enter
      ⟨oldPhase, r + 1, k / 2 * 2 ^ (r + 1), width n (r + 1),
        n / 2 ^ (r + 1 + 1) * 2 ^ (r + 1)⟩ := by
    simp only [Climb.next, standing, clearRound_mul hround hcurrent, clearRound_mul hround hlast,
      hhalf, width_succ]
  rw [hnext, enter_eq (Nat.succ_le_of_lt (hround.trans (by decide)))]
  split_ifs with hwidth
  · rfl
  · exact (h.up hwidth).search oldPhase (if_neg (Nat.succ_ne_zero r))

/-! ## Tickets -/

variable {ι : Type} [DecidableEq ι]

/-- How far the ticket of a slot has come from the phase. -/
def mark (capacity taken : ℕ) : Phase :=
  if taken = 0 then 0 else if taken < capacity then 1 else 2

theorem mark_zero (capacity : ℕ) : mark capacity 0 = 0 := if_pos rfl

theorem add_mark_zero (p : Phase) (capacity : ℕ) : p + mark capacity 0 = p := by
  rw [mark_zero]
  exact BitVec.add_zero p

theorem mark_full {capacity : ℕ} (hpos : 0 < capacity) : mark capacity capacity = 2 := by
  rw [mark, if_neg hpos.ne', if_neg (lt_irrefl capacity)]

theorem mark_partial {capacity taken : ℕ} (hpos : 0 < taken) (hlt : taken < capacity) :
    mark capacity taken = 1 := by
  rw [mark, if_neg hpos.ne', if_pos hlt]

omit [DecidableEq ι] in
/-- The ticket of one slot is written. -/
theorem setTicket_standing (s : State ι) (value : Phase) (r' k' : ℕ) :
    (s.setTicket (standing n oldPhase r k) value).tickets (k' * 2 ^ r') r' =
      if r' = r ∧ k' = k then value else s.tickets (k' * 2 ^ r') r' := by
  apply if_congr _ rfl rfl
  constructor
  · rintro ⟨hcurrent, rfl⟩
    exact ⟨rfl, Nat.eq_of_mul_eq_mul_right (Nat.two_pow_pos _) hcurrent⟩
  · rintro ⟨rfl, rfl⟩
    exact ⟨rfl, rfl⟩

/-- One more place of a slot is taken. -/
def State.take (n : ℕ) (s : State ι) (t : ι) (update r k taken : ℕ) : State ι :=
  (s.setTicket (standing n s.phase r k)
    (s.phase + mark (capacity n r k) (taken + 1))).follow t update s.phase
      (if taken + 1 = capacity n r k then (standing n s.phase r k).next else .returns false)

/-- No place of a slot is left. -/
def State.pass (n : ℕ) (s : State ι) (t : ι) (update r k : ℕ) : State ι :=
  s.follow t update s.phase ((standing n s.phase r k).advance (s.phase + 2))

variable {s : State ι} {t : ι} {update taken : ℕ}

theorem take_last (hlast : taken + 1 = capacity n r k) :
    s.take n t update r k taken =
      (s.setTicket (standing n s.phase r k) (s.phase + 2)).follow t update s.phase
        (standing n s.phase r k).next := by
  have hpos : 0 < capacity n r k := by omega
  rw [State.take, if_pos hlast, hlast, mark_full hpos]

theorem take_early (hlt : taken + 1 < capacity n r k) :
    s.take n t update r k taken =
      (s.setTicket (standing n s.phase r k) (s.phase + 1)).follow t update s.phase
        (.returns false) := by
  rw [State.take, if_neg hlt.ne, mark_partial (Nat.succ_pos taken) hlt]

/-- Two tickets of a phase are as far apart as their steps. -/
theorem ticket_ne (p : Phase) {a b : Phase} (hne : a ≠ b) : p + a ≠ p + b :=
  fun heq => hne ((BitVec.add_right_inj p).mp heq)

theorem ticket_ne_phase (p : Phase) {a : Phase} (hne : a ≠ 0) : p + a ≠ p :=
  fun heq => hne (BitVec.add_right_eq_self.mp heq)

/-- The first compare-exchange takes a place if nobody has, passes if no place is
left, and else looks again. -/
theorem attempt_eq (hslot : Slot n r k) (hle : taken ≤ capacity n r k)
    (hticket : s.tickets (k * 2 ^ r) r = s.phase + mark (capacity n r k) taken) :
    s.attempt t update (standing n s.phase r k) =
      if taken = capacity n r k then s.pass n t update r k
      else if taken = 0 then s.take n t update r k taken
      else s.setPc t (.second update (standing n s.phase r k)) := by
  have hpos := hslot.capacity_pos
  have hexpect : s.tickets (standing n s.phase r k).current (standing n s.phase r k).round =
    s.phase + mark (capacity n r k) taken := hticket
  have hzero : s.phase + 2 ≠ s.phase := ticket_ne_phase _ (by decide)
  simp only [State.attempt, hslot.alone_iff, hexpect, standing_oldPhase, standing_halfStep,
    standing_fullStep]
  by_cases hfull : taken = capacity n r k
  · have htwo : s.phase + 2 ≠ s.phase + 1 := ticket_ne _ (by decide)
    rw [if_pos hfull, hfull, mark_full hpos, if_neg hzero, if_neg hzero, if_neg htwo, if_pos rfl,
      ite_self]
    rfl
  · rw [if_neg hfull]
    by_cases hnone : taken = 0
    · rw [if_pos hnone, hnone, add_mark_zero, if_pos rfl, if_pos rfl]
      split_ifs with halone
      · rw [take_last halone.symm]
      · rw [take_early (by omega)]
    · have hone : s.phase + 1 ≠ s.phase := ticket_ne_phase _ (by decide)
      have halone : capacity n r k ≠ 1 := by omega
      rw [if_neg hnone, if_neg halone, mark_partial (by omega) (by omega), if_neg hone, if_pos rfl]

/-- The second compare-exchange takes the last place, or passes. -/
theorem second_eq (hpos : 0 < taken) (hle : taken ≤ capacity n r k)
    (hticket : s.tickets (k * 2 ^ r) r = s.phase + mark (capacity n r k) taken) :
    s.second t update (standing n s.phase r k) =
      if taken = capacity n r k then s.pass n t update r k
      else s.take n t update r k taken := by
  have hexpect : s.tickets (standing n s.phase r k).current (standing n s.phase r k).round =
    s.phase + mark (capacity n r k) taken := hticket
  simp only [State.second, hexpect, standing_oldPhase, standing_halfStep, standing_fullStep]
  by_cases hfull : taken = capacity n r k
  · have htwo : s.phase + 2 ≠ s.phase + 1 := ticket_ne _ (by decide)
    rw [if_pos hfull, hfull, mark_full (hfull ▸ hpos), if_neg htwo, if_pos rfl]
    rfl
  · have hlast : taken + 1 = capacity n r k := by
      have htwo := capacity_le_two n r k
      omega
    rw [if_neg hfull, mark_partial hpos (by omega), if_pos rfl, take_last hlast]

end Libhipcxx.Barrier.Tree
