import Libhipcxx.Support.Transition
import Mathlib.Algebra.Group.Int.Defs
import Mathlib.Algebra.Group.Nat.Defs

/-!
# A counter of units

What a counting semaphore is for, without threads: units are given, and a
unit is taken only when there is one.  The two ledgers, of units given and of
units taken, are never read by the machine.
-/

namespace Libhipcxx.Semaphore

open Transition

/-- The counter with its ledgers. -/
structure Units where
  count : ℤ
  given : ℕ
  taken : ℕ

namespace Units

inductive Event where
  | give (n : ℕ)
  | take

def step (u : Units) : Event → Option Units
  | .give n => some { u with count := u.count + n, given := u.given + n }
  | .take =>
      if 0 < u.count then
        some { u with count := u.count - 1, taken := u.taken + 1 }
      else none

def machine (init : ℕ) : System Units Event where
  start u := u = ⟨init, 0, 0⟩
  step := step

/-- Giving must not exceed `max`. -/
def WithinMax (max : ℤ) (u : Units) : Event → Prop
  | .give n => u.count + n ≤ max
  | .take => True

/-- The counter equals the initial units, plus those given, minus those
taken, and stays between zero and the maximum. -/
structure Balanced (init : ℕ) (max : ℤ) (u : Units) : Prop where
  count_eq : u.count = init + u.given - u.taken
  nonneg : 0 ≤ u.count
  le_max : u.count ≤ max

variable {init : ℕ} {max : ℤ} {u u' : Units}

theorem balanced_step {event : Event} (h : Balanced init max u)
    (hmax : WithinMax max u event) (hstep : step u event = some u') :
    Balanced init max u' := by
  obtain ⟨hcount, hnonneg, hle⟩ := h
  cases event with
  | give n =>
      obtain rfl := Option.some.inj hstep
      have hgive : u.count + n ≤ max := hmax
      constructor <;> dsimp only <;> omega
  | take =>
      rw [step] at hstep
      split at hstep
      · obtain rfl := Option.some.inj hstep
        constructor <;> dsimp only <;> omega
      · cases hstep

theorem balanced_of_reachable (hinit : (init : ℤ) ≤ max)
    (h : (machine init).Reachable (WithinMax max) u) :
    Balanced init max u := by
  refine h.invariant ?_ ?_
  · rintro u rfl
    constructor <;> simp [hinit]
  · intro u event u' hbal hmax hstep
    exact balanced_step hbal hmax hstep

end Units

end Libhipcxx.Semaphore
