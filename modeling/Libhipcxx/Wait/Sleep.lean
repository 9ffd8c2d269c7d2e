import Libhipcxx.Chrono.Duration
import Mathlib.Data.Int.ConditionallyCompleteOrder
import Mathlib.Order.Monotone.Basic

/-!
# Sleeping on a device

`__libcpp_thread_sleep_for` reads the clock of the device until the time has
passed.  One variant compares in nanoseconds.  The other one turns the request
into ticks first, and reads the clock in seven loops: each ends when no more
than its threshold is left, and the last one has no threshold.

The readings are a sequence of integers, and the operations on them are checked
for overflow.
-/

namespace Libhipcxx.Wait.Sleep

open Chrono (Rep)

/-- How a call ends; `reading` is the number of the last reading. -/
inductive Outcome where
  | returned (reading : ℕ)
  | assertion
  | overflow
  deriving DecidableEq

/-- `_LIBCUDACXX_HIP_USE_FINEGRANULAR_NANOSLEEP`, or not. -/
inductive Variant where
  | fineGranular
  | staged

/-- The result of an operation on `long long`. -/
def longLong (x : ℤ) : Option ℤ := Rep.longLong.type.arith x

/-- A loop that reads the clock again while the last reading is too early. -/
def poll (clock : ℕ → ℤ) (early : ℤ → Option Bool) : ℕ → ℕ → Option Outcome
  | 0, _ => none
  | fuel + 1, n =>
    match early (clock n) with
    | none => some .overflow
    | some true => poll clock early fuel (n + 1)
    | some false => some (.returned n)

def fineEarly (nanosecondsPerCycle step start now : ℤ) : Option Bool := do
  let elapsed ← longLong (now - start)
  let nanoseconds ← longLong (elapsed * nanosecondsPerCycle)
  return nanoseconds < step

def stageEarly (stop threshold now : ℤ) : Option Bool := do
  let bound ← longLong (now + threshold)
  return bound < stop

/-- What the loops leave to the next one. -/
def thresholds : List ℤ := [1625, 806, 396, 192, 89, 38, 0]

/-- The loops, one after the other. -/
def stages (clock : ℕ → ℤ) (stop : ℤ) (fuel : ℕ) : List ℤ → ℕ → Option Outcome
  | [], n => some (.returned n)
  | threshold :: rest, n =>
    match poll clock (stageEarly stop threshold) fuel n with
    | some (.returned n) => stages clock stop fuel rest n
    | failed => failed

/-- `__libcpp_thread_sleep_for`, with the number of readings in each loop
bounded by `fuel`. -/
def sleepFor (variant : Variant) (clock : ℕ → ℤ) (nanosecondsPerCycle step : ℤ)
    (fuel : ℕ) : Option Outcome :=
  if step < 2 ^ 32 - 1 then
    match variant with
    | .fineGranular => poll clock (fineEarly nanosecondsPerCycle step (clock 0)) fuel 0
    | .staged =>
      match longLong (clock 0 + step.tdiv nanosecondsPerCycle) with
      | none => some .overflow
      | some stop => stages clock stop fuel thresholds 0
  else some .assertion

/-! ## Loops -/

variable {clock : ℕ → ℤ} {early : ℤ → Option Bool} {fuel n : ℕ} {x y stop : ℤ}
  {outcome : Outcome}

theorem longLong_eq (h : longLong x = some y) : y = x := by
  rw [longLong, IntegerType.arith, if_pos (by rfl)] at h
  split at h
  · exact (Option.some.inj h).symm
  · cases h

/-- Where a loop ends, every reading before was too early, and the last one is
not, or overflows. -/
theorem poll_spec (h : poll clock early fuel n = some outcome) :
    ∃ m, n ≤ m ∧ (∀ k, n ≤ k → k < m → early (clock k) = some true) ∧
      ((early (clock m) = none ∧ outcome = .overflow) ∨
        (early (clock m) = some false ∧ outcome = .returned m)) := by
  induction fuel generalizing n with
  | zero => cases h
  | succ fuel ih =>
    rw [poll] at h
    split at h
    · rename_i hnone
      exact ⟨n, le_rfl, fun k hn hk => absurd hn (not_le.mpr hk),
        Or.inl ⟨hnone, (Option.some.inj h).symm⟩⟩
    · rename_i htrue
      obtain ⟨m, hm, hearly, hend⟩ := ih h
      refine ⟨m, Nat.le_of_succ_le hm, ?_, hend⟩
      intro k hn hk
      rcases hn.eq_or_lt with rfl | hlt
      · exact htrue
      · exact hearly k hlt hk
    · rename_i hfalse
      exact ⟨n, le_rfl, fun k hn hk => absurd hn (not_le.mpr hk),
        Or.inr ⟨hfalse, (Option.some.inj h).symm⟩⟩

/-- Fuel up to a reading that is not too early is enough. -/
theorem poll_ends {m : ℕ} (hm : n ≤ m) (h : early (clock m) ≠ some true)
    (hfuel : m < n + fuel) : poll clock early fuel n ≠ none := by
  induction fuel generalizing n with
  | zero => exact absurd hm (not_le.mpr hfuel)
  | succ fuel ih =>
    rw [poll]
    split
    · exact Option.some_ne_none _
    · rename_i htrue
      have hne : n ≠ m := fun heq => h (heq ▸ htrue)
      exact ih (lt_of_le_of_ne hm hne) (by omega)
    · exact Option.some_ne_none _

theorem stageEarly_eq {threshold : ℤ} {b : Bool}
    (h : stageEarly stop threshold x = some b) : b = decide (x + threshold < stop) := by
  rw [stageEarly, Option.bind_eq_bind, Option.bind_eq_some_iff] at h
  obtain ⟨bound, hbound, hb⟩ := h
  rw [← longLong_eq hbound]
  exact (Option.some.inj hb).symm

theorem stageEarly_none {threshold : ℤ} (h : stageEarly stop threshold x = none) :
    longLong (x + threshold) = none := by
  rw [stageEarly, Option.bind_eq_bind, Option.bind_eq_none_iff] at h
  by_contra hsome
  obtain ⟨bound, hbound⟩ := Option.ne_none_iff_exists'.mp hsome
  exact Option.some_ne_none _ (h bound hbound)

/-- What is true where a sequence of loops ends: all readings before the last
were before the time to stop. -/
theorem stages_spec (hmono : Monotone clock) {thresholds : List ℤ}
    (hpos : ∀ t ∈ thresholds, 0 ≤ t) (hbefore : ∀ k < n, clock k < stop)
    (h : stages clock stop fuel thresholds n = some outcome) :
    ∃ m, n ≤ m ∧ (∀ k < m, clock k < stop) ∧
      ((∃ t ∈ thresholds, longLong (clock m + t) = none ∧ outcome = .overflow) ∨
        (outcome = .returned m ∧ (0 ∈ thresholds → stop ≤ clock m))) := by
  induction thresholds generalizing n with
  | nil => exact ⟨n, le_rfl, hbefore, Or.inr ⟨(Option.some.inj h).symm, nofun⟩⟩
  | cons threshold rest ih =>
    rw [stages] at h
    have hnonneg : 0 ≤ threshold := hpos threshold List.mem_cons_self
    cases hpoll : poll clock (stageEarly stop threshold) fuel n with
    | none =>
      rw [hpoll] at h
      cases h
    | some first =>
      obtain ⟨m, hm, hearly, hend⟩ := poll_spec hpoll
      have hbefore_m : ∀ k < m, clock k < stop := by
        intro k hk
        rcases lt_or_ge k n with hlt | hge
        · exact hbefore k hlt
        · have hsooner := of_decide_eq_true (stageEarly_eq (hearly k hge hk)).symm
          exact lt_of_le_of_lt (le_add_of_nonneg_right hnonneg) hsooner
      rw [hpoll] at h
      rcases hend with ⟨hnone, rfl⟩ | ⟨hfalse, rfl⟩
      · exact ⟨m, hm, hbefore_m, Or.inl ⟨threshold, List.mem_cons_self,
          stageEarly_none hnone, (Option.some.inj h).symm⟩⟩
      · obtain ⟨m', hm', hbefore', hrest⟩ :=
          ih (fun t ht => hpos t (List.mem_cons_of_mem _ ht)) hbefore_m h
        refine ⟨m', hm.trans hm', hbefore', ?_⟩
        rcases hrest with ⟨t, ht, hover⟩ | ⟨hreturned, hstop⟩
        · exact Or.inl ⟨t, List.mem_cons_of_mem _ ht, hover⟩
        · refine Or.inr ⟨hreturned, ?_⟩
          intro hzero
          rcases List.mem_cons.mp hzero with rfl | hmem
          · have hlate := of_decide_eq_false (stageEarly_eq hfalse).symm
            rw [add_zero, not_lt] at hlate
            exact hlate.trans (hmono hm')
          · exact hstop hmem

/-- Fuel for the readings up to one at which it is time to stop is enough for
every loop. -/
theorem stages_ends {thresholds : List ℤ} {m : ℕ} (hmono : Monotone clock)
    (hpos : ∀ t ∈ thresholds, 0 ≤ t) (hm : stop ≤ clock m) (hfuel : m < fuel) :
    ∀ n, stages clock stop fuel thresholds n ≠ none := by
  induction thresholds with
  | nil =>
    intro n
    exact Option.some_ne_none _
  | cons threshold rest ih =>
    intro n
    have hnonneg : 0 ≤ threshold := hpos threshold List.mem_cons_self
    have hends : poll clock (stageEarly stop threshold) fuel n ≠ none := by
      apply poll_ends (le_max_left n m)
      · intro hearly
        have hsooner := of_decide_eq_true (stageEarly_eq hearly).symm
        have hlate := hm.trans (hmono (le_max_right n m))
        omega
      · omega
    rw [stages]
    split
    · exact ih (fun t ht => hpos t (List.mem_cons_of_mem _ ht)) _
    · exact hends

/-! ## The variants -/

/-- No result of a call is an overflow. -/
def NoOverflow (variant : Variant) (clock : ℕ → ℤ) (nanosecondsPerCycle step : ℤ) : Prop :=
  ∀ fuel, sleepFor variant clock nanosecondsPerCycle step fuel ≠ some .overflow

def Returns (variant : Variant) (clock : ℕ → ℤ) (nanosecondsPerCycle step : ℤ) : Prop :=
  ∃ fuel reading, sleepFor variant clock nanosecondsPerCycle step fuel =
    some (.returned reading)

/-- A call returns, and when it does, the time has passed. -/
def Meets (variant : Variant) (clock : ℕ → ℤ) (nanosecondsPerCycle step : ℤ) : Prop :=
  Returns variant clock nanosecondsPerCycle step ∧
    ∀ fuel reading,
      sleepFor variant clock nanosecondsPerCycle step fuel = some (.returned reading) →
        step ≤ (clock reading - clock 0) * nanosecondsPerCycle

/-- A request that the assertion allows, and a clock that does not go back and
is unbounded. -/
structure Valid (clock : ℕ → ℤ) (nanosecondsPerCycle step : ℤ) : Prop where
  cycle_pos : 0 < nanosecondsPerCycle
  step_nonneg : 0 ≤ step
  step_lt : step < 2 ^ 32 - 1
  mono : Monotone clock
  unbounded : ∀ time, ∃ n, time < clock n

variable {nanosecondsPerCycle step : ℤ}

theorem fineEarly_eq {start : ℤ} {b : Bool}
    (h : fineEarly nanosecondsPerCycle step start x = some b) :
    b = decide ((x - start) * nanosecondsPerCycle < step) := by
  rw [fineEarly, Option.bind_eq_bind, Option.bind_eq_some_iff] at h
  obtain ⟨elapsed, helapsed, h⟩ := h
  rw [Option.bind_eq_some_iff] at h
  obtain ⟨nanoseconds, hnanoseconds, hb⟩ := h
  rw [← longLong_eq helapsed, ← longLong_eq hnanoseconds]
  exact (Option.some.inj hb).symm

theorem Valid.exists_late (h : Valid clock nanosecondsPerCycle step) :
    ∃ m, step ≤ (clock m - clock 0) * nanosecondsPerCycle := by
  obtain ⟨m, hm⟩ := h.unbounded (clock 0 + step)
  have hstep := h.step_nonneg
  have hticks : step ≤ clock m - clock 0 := by omega
  exact ⟨m, hticks.trans (le_mul_of_one_le_right (hstep.trans hticks) h.cycle_pos)⟩

theorem Valid.exists_first (h : Valid clock nanosecondsPerCycle step) :
    ∃ m, (∀ k < m, (clock k - clock 0) * nanosecondsPerCycle < step) ∧
      step ≤ (clock m - clock 0) * nanosecondsPerCycle := by
  classical
  refine ⟨Nat.find h.exists_late, ?_, Nat.find_spec h.exists_late⟩
  intro k hk
  exact not_le.mp (Nat.find_min h.exists_late hk)

theorem fine_meets (h : Valid clock nanosecondsPerCycle step)
    (hover : NoOverflow .fineGranular clock nanosecondsPerCycle step) :
    Meets .fineGranular clock nanosecondsPerCycle step := by
  have hrun (fuel : ℕ) : sleepFor .fineGranular clock nanosecondsPerCycle step fuel =
      poll clock (fineEarly nanosecondsPerCycle step (clock 0)) fuel 0 :=
    if_pos h.step_lt
  constructor
  · obtain ⟨m, hm⟩ := h.exists_late
    have hends : poll clock (fineEarly nanosecondsPerCycle step (clock 0)) (m + 1) 0 ≠ none := by
      apply poll_ends (Nat.zero_le m)
      · intro hearly
        exact not_lt.mpr hm (of_decide_eq_true (fineEarly_eq hearly).symm)
      · omega
    obtain ⟨outcome, houtcome⟩ := Option.ne_none_iff_exists'.mp hends
    obtain ⟨reading, -, -, ⟨-, rfl⟩ | ⟨-, rfl⟩⟩ := poll_spec houtcome
    · exact absurd ((hrun _).trans houtcome) (hover _)
    · exact ⟨m + 1, reading, (hrun _).trans houtcome⟩
  · intro fuel reading hreturned
    rw [hrun] at hreturned
    obtain ⟨m, -, -, ⟨-, hno⟩ | ⟨hlate, hsame⟩⟩ := poll_spec hreturned
    · cases hno
    · obtain rfl := Outcome.returned.inj hsame
      exact not_lt.mp (of_decide_eq_false (fineEarly_eq hlate).symm)

theorem thresholds_nonneg : ∀ t ∈ thresholds, 0 ≤ t := by decide

theorem thresholds_le : ∀ t ∈ thresholds, t ≤ 1625 := by decide

theorem thresholds_zero : 0 ∈ thresholds := by decide

/-- The staged variant returns with the first reading that is the request, in
whole ticks, after the first one. -/
theorem staged_spec (h : Valid clock nanosecondsPerCycle step)
    (hover : NoOverflow .staged clock nanosecondsPerCycle step)
    (houtcome : sleepFor .staged clock nanosecondsPerCycle step fuel = some outcome) :
    ∃ m, outcome = .returned m ∧
      (∀ k < m, clock k < clock 0 + step / nanosecondsPerCycle) ∧
      clock 0 + step / nanosecondsPerCycle ≤ clock m := by
  have hno : outcome ≠ .overflow := by
    rintro rfl
    exact hover fuel houtcome
  rw [sleepFor, if_pos h.step_lt] at houtcome
  rw [Int.tdiv_eq_ediv_of_nonneg h.step_nonneg] at houtcome
  split at houtcome
  · exact absurd (Option.some.inj houtcome).symm hno
  · rename_i stop hstop
    obtain rfl := longLong_eq hstop
    obtain ⟨m, -, hbefore, hend⟩ := stages_spec h.mono thresholds_nonneg
      (fun k hk => absurd hk (Nat.not_lt_zero k)) houtcome
    rcases hend with ⟨t, -, -, hover'⟩ | ⟨hreturned, hlate⟩
    · exact absurd hover' hno
    · exact ⟨m, hreturned, hbefore, hlate thresholds_zero⟩

theorem staged_returns (h : Valid clock nanosecondsPerCycle step)
    (hover : NoOverflow .staged clock nanosecondsPerCycle step) :
    Returns .staged clock nanosecondsPerCycle step := by
  obtain ⟨m, hm⟩ := h.unbounded (clock 0 + step / nanosecondsPerCycle)
  have hends : sleepFor .staged clock nanosecondsPerCycle step (m + 1) ≠ none := by
    rw [sleepFor, if_pos h.step_lt]
    rw [Int.tdiv_eq_ediv_of_nonneg h.step_nonneg]
    split
    · exact Option.some_ne_none _
    · rename_i stop hstop
      obtain rfl := longLong_eq hstop
      exact stages_ends h.mono thresholds_nonneg hm.le (Nat.lt_succ_self m) 0
  obtain ⟨outcome, houtcome⟩ := Option.ne_none_iff_exists'.mp hends
  obtain ⟨reading, rfl, -, -⟩ := staged_spec h hover houtcome
  exact ⟨m + 1, reading, houtcome⟩

theorem mul_lt_step {elapsed : ℤ} (hpos : 0 < nanosecondsPerCycle)
    (h : elapsed < step / nanosecondsPerCycle) : elapsed * nanosecondsPerCycle < step :=
  lt_of_lt_of_le (mul_lt_mul_of_pos_right h hpos) (Int.ediv_mul_le step hpos.ne')

/-- Whole ticks are enough unless a part of a tick is left and not one tick
more has passed. -/
theorem step_le_iff {elapsed : ℤ} (hpos : 0 < nanosecondsPerCycle)
    (h : step / nanosecondsPerCycle ≤ elapsed) :
    step ≤ elapsed * nanosecondsPerCycle ↔
      nanosecondsPerCycle ∣ step ∨ elapsed ≠ step / nanosecondsPerCycle := by
  constructor
  · intro hle
    by_cases heq : elapsed = step / nanosecondsPerCycle
    · rw [heq] at hle
      have hexact := le_antisymm (Int.ediv_mul_le step hpos.ne') hle
      exact Or.inl (Dvd.intro_left _ hexact)
    · exact Or.inr heq
  · rintro (hdvd | hne)
    · rw [← Int.ediv_mul_cancel hdvd]
      exact mul_le_mul_of_nonneg_right h hpos.le
    · have hmore : step / nanosecondsPerCycle + 1 ≤ elapsed :=
        Int.add_one_le_of_lt (lt_of_le_of_ne h (Ne.symm hne))
      exact (Int.lt_ediv_add_one_mul_self step hpos).le.trans
        (mul_le_mul_of_nonneg_right hmore hpos.le)

/-! ## Where nothing overflows -/

/-- The readings that are too early and the first one that is not leave room
for the thresholds and for the elapsed time in nanoseconds. -/
def Room (clock : ℕ → ℤ) (nanosecondsPerCycle step : ℤ) : Prop :=
  ∀ n, (∀ k < n, (clock k - clock 0) * nanosecondsPerCycle < step) →
    Rep.longLong.Fits (clock n) ∧ Rep.longLong.Fits (clock n + 1625) ∧
      Rep.longLong.Fits ((clock n - clock 0) * nanosecondsPerCycle)

theorem longLong_ne_none (hlo : Rep.longLong.Fits x) (hhi : Rep.longLong.Fits y) {z : ℤ}
    (hxz : x ≤ z) (hzy : z ≤ y) : longLong z ≠ none := by
  have hfits : Rep.longLong.type.Fits z := ⟨hlo.1.trans hxz, hzy.trans hhi.2⟩
  rw [longLong, IntegerType.arith_of_fits hfits]
  exact Option.some_ne_none _

theorem fineEarly_ne_none (hfits : Rep.longLong.Fits ((x - y) * nanosecondsPerCycle))
    (hpos : 0 < nanosecondsPerCycle) (hle : y ≤ x) :
    fineEarly nanosecondsPerCycle step y x ≠ none := by
  have helapsed : x - y ≤ (x - y) * nanosecondsPerCycle :=
    le_mul_of_one_le_right (by omega) hpos
  have hzero : Rep.longLong.Fits 0 := IntegerType.fits_zero _
  intro hnone
  rw [fineEarly, Option.bind_eq_bind, Option.bind_eq_none_iff] at hnone
  obtain ⟨elapsed, hsome⟩ := Option.ne_none_iff_exists'.mp
    (longLong_ne_none hzero hfits (sub_nonneg.mpr hle) helapsed)
  have hnone' := hnone elapsed hsome
  obtain rfl := longLong_eq hsome
  rw [Option.bind_eq_none_iff] at hnone'
  obtain ⟨nanoseconds, hsome'⟩ :=
    Option.ne_none_iff_exists'.mp (longLong_ne_none hfits hfits le_rfl le_rfl)
  exact Option.some_ne_none _ (hnone' nanoseconds hsome')

theorem noOverflow_of_room (h : Valid clock nanosecondsPerCycle step)
    (hroom : Room clock nanosecondsPerCycle step) (variant : Variant) :
    NoOverflow variant clock nanosecondsPerCycle step := by
  intro fuel hrun
  cases variant with
  | fineGranular =>
    rw [sleepFor, if_pos h.step_lt] at hrun
    obtain ⟨m, -, hearly, ⟨hnone, -⟩ | ⟨-, hno⟩⟩ := poll_spec hrun
    · have hsooner : ∀ k < m, (clock k - clock 0) * nanosecondsPerCycle < step := by
        intro k hk
        exact of_decide_eq_true (fineEarly_eq (hearly k (Nat.zero_le k) hk)).symm
      exact fineEarly_ne_none (hroom m hsooner).2.2 h.cycle_pos (h.mono (Nat.zero_le m)) hnone
    · cases hno
  | staged =>
    rw [sleepFor, if_pos h.step_lt, Int.tdiv_eq_ediv_of_nonneg h.step_nonneg] at hrun
    have hzero := hroom 0 fun k hk => absurd hk (Nat.not_lt_zero k)
    split at hrun
    · rename_i hnone
      obtain ⟨m, hsooner, hlate⟩ := h.exists_first
      refine longLong_ne_none hzero.1 (hroom m hsooner).1 ?_ ?_ hnone
      · exact le_add_of_nonneg_right (Int.ediv_nonneg h.step_nonneg h.cycle_pos.le)
      · have hticks : step / nanosecondsPerCycle ≤ clock m - clock 0 :=
          not_lt.mp fun hlt => not_lt.mpr hlate (mul_lt_step h.cycle_pos hlt)
        omega
    · rename_i stop hstop
      obtain rfl := longLong_eq hstop
      obtain ⟨m, -, hbefore, ⟨t, ht, hnone, -⟩ | ⟨hno, -⟩⟩ := stages_spec h.mono
        thresholds_nonneg (fun k hk => absurd hk (Nat.not_lt_zero k)) hrun
      · obtain ⟨hfits, hmore, -⟩ := hroom m fun k hk =>
          mul_lt_step h.cycle_pos (by have := hbefore k hk; omega)
        have hle := thresholds_le t ht
        have hpos := thresholds_nonneg t ht
        exact longLong_ne_none hfits hmore (by omega) (by omega) hnone
      · cases hno

/-- Both variants return, and the fine-grained one when the time has passed.
The staged one does so exactly where the request is a number of whole ticks, or
no reading is as many ticks after the first one as the request has whole
ticks. -/
theorem sleep_meets_iff (h : Valid clock nanosecondsPerCycle step)
    (hover : ∀ variant, NoOverflow variant clock nanosecondsPerCycle step) :
    (∀ variant, Returns variant clock nanosecondsPerCycle step) ∧
    Meets .fineGranular clock nanosecondsPerCycle step ∧
    ((∀ variant, Meets variant clock nanosecondsPerCycle step) ↔
      nanosecondsPerCycle ∣ step ∨
        ∀ n, clock n ≠ clock 0 + step / nanosecondsPerCycle) := by
  have hfine := fine_meets h (hover .fineGranular)
  have hreturns := staged_returns h (hover .staged)
  refine ⟨?_, hfine, ?_⟩
  · intro variant
    cases variant with
    | fineGranular => exact hfine.1
    | staged => exact hreturns
  · constructor
    · intro hmeets
      obtain ⟨fuel, reading, hreturned⟩ := hreturns
      have htime := (hmeets .staged).2 fuel reading hreturned
      obtain ⟨m, hm, hbefore, hlate⟩ := staged_spec h (hover .staged) hreturned
      obtain rfl := Outcome.returned.inj hm
      have helapsed : step / nanosecondsPerCycle ≤ clock reading - clock 0 := by omega
      apply ((step_le_iff h.cycle_pos helapsed).mp htime).imp_right
      intro hne n hn
      rcases lt_or_ge n reading with hlt | hge
      · exact (hbefore n hlt).ne hn
      · have hle := h.mono hge
        omega
    · intro hcondition variant
      cases variant with
      | fineGranular => exact hfine
      | staged =>
        refine ⟨hreturns, ?_⟩
        intro fuel reading hreturned
        obtain ⟨m, hm, -, hlate⟩ := staged_spec h (hover .staged) hreturned
        obtain rfl := Outcome.returned.inj hm
        have helapsed : step / nanosecondsPerCycle ≤ clock reading - clock 0 := by omega
        apply (step_le_iff h.cycle_pos helapsed).mpr
        apply hcondition.imp_right
        intro hnever heq
        exact hnever reading (by omega)

/-- A clock that is read once in each tick. -/
theorem ticks_valid (hpos : 0 < nanosecondsPerCycle) (hnonneg : 0 ≤ step)
    (hlt : step < 2 ^ 32 - 1) : Valid (fun n => (n : ℤ)) nanosecondsPerCycle step := by
  refine ⟨hpos, hnonneg, hlt, Nat.mono_cast, ?_⟩
  intro time
  exact ⟨time.toNat + 1, by omega⟩

theorem ticks_room (hpos : 0 < nanosecondsPerCycle) (hcycle : nanosecondsPerCycle ≤ 1000)
    (hlt : step < 2 ^ 32 - 1) : Room (fun n => (n : ℤ)) nanosecondsPerCycle step := by
  intro n h
  simp only [Nat.cast_zero, sub_zero] at h ⊢
  have hbounds : (n : ℤ) * nanosecondsPerCycle ≤ 2 ^ 33 := by
    cases n with
    | zero =>
      rw [Nat.cast_zero, zero_mul]
      decide
    | succ n =>
      have hlast := h n (Nat.lt_succ_self n)
      rw [Nat.cast_succ, add_mul, one_mul]
      omega
  have hle : (n : ℤ) ≤ n * nanosecondsPerCycle :=
    le_mul_of_one_le_right (Nat.cast_nonneg n) hpos
  have hfits {x : ℤ} (hx : 0 ≤ x) (hx_le : x ≤ 2 ^ 34) : Rep.longLong.Fits x := by
    change (-9223372036854775808 : ℤ) ≤ x ∧ x ≤ (9223372036854775807 : ℤ)
    omega
  exact ⟨hfits (by omega) (by omega), hfits (by omega) (by omega),
    hfits (by omega) (by omega)⟩

/-- With the clock read once in each tick, a request of two ticks is met. -/
theorem sleep_meets_iff_two_ticks :
    Meets .fineGranular (fun n => (n : ℤ)) 40 80 ∧ Meets .staged (fun n => (n : ℤ)) 40 80 := by
  have hvalid : Valid (fun n => (n : ℤ)) 40 80 :=
    ticks_valid (by decide) (by decide) (by decide)
  have hroom : Room (fun n => (n : ℤ)) 40 80 :=
    ticks_room (by decide) (by decide) (by decide)
  have hmeets := (sleep_meets_iff hvalid (noOverflow_of_room hvalid hroom)).2.2.mpr
    (Or.inl (by decide))
  exact ⟨hmeets .fineGranular, hmeets .staged⟩

/-- A request of 41 ns is over after one tick of 40 ns. -/
theorem sleep_not_meets :
    Valid (fun n => (n : ℤ)) 40 41 ∧
      (∀ variant, NoOverflow variant (fun n => (n : ℤ)) 40 41) ∧
      ¬ Meets .staged (fun n => (n : ℤ)) 40 41 := by
  have hvalid : Valid (fun n => (n : ℤ)) 40 41 :=
    ticks_valid (by decide) (by decide) (by decide)
  have hroom : Room (fun n => (n : ℤ)) 40 41 :=
    ticks_room (by decide) (by decide) (by decide)
  refine ⟨hvalid, noOverflow_of_room hvalid hroom, ?_⟩
  intro hmeets
  have htime := hmeets.2 2 1 (by decide)
  exact absurd htime (by decide)

end Libhipcxx.Wait.Sleep
