import Libhipcxx.Support.Transition
import Mathlib.Data.Nat.Notation
import Mathlib.Algebra.BigOperators.Ring.Finset
import Mathlib.Data.List.Induction
import Mathlib.Logic.Function.Basic

/-!
# What a barrier is for

Arrivals are counted up to the number the phase expects.  Then the phase
completes, and the participants that have announced that they leave are not
expected any more.  A wait on a phase is over when that phase has completed.

The barriers of this development are read as this one: an action is a step that
their users can tell, and all their other steps are silent.
-/

namespace Libhipcxx.Barrier.Phased

open Transition

structure State (ι : Type) where
  phaseNo : ℕ
  expected : ℕ
  arrived : ℕ
  leaving : ℕ
  awaits : ι → Option ℕ

inductive Action (ι : Type) where
  | arrive (update : ℕ)
  | leave
  | complete
  | await (t : ι) (phaseNo : ℕ)
  | resume (t : ι)
  deriving DecidableEq

variable {ι : Type} [DecidableEq ι]

namespace State

def arrive (s : State ι) (update : ℕ) : State ι := { s with arrived := s.arrived + update }

def leave (s : State ι) : State ι := { s with leaving := s.leaving + 1 }

def complete (s : State ι) : State ι :=
  { s with
    phaseNo := s.phaseNo + 1
    expected := s.expected - s.leaving
    arrived := 0
    leaving := 0 }

def setAwaits (s : State ι) (t : ι) (k : Option ℕ) : State ι :=
  { s with awaits := Function.update s.awaits t k }

end State

def step (s : State ι) : Action ι → Option (State ι)
  | .arrive update => if s.arrived + update ≤ s.expected then some (s.arrive update) else none
  | .leave => if s.leaving < s.expected then some s.leave else none
  | .complete => if 0 < s.expected ∧ s.arrived = s.expected then some s.complete else none
  | .await t k => if s.awaits t = none ∧ k ≤ s.phaseNo then some (s.setAwaits t (some k)) else none
  | .resume t =>
      match s.awaits t with
      | some k => if k < s.phaseNo then some (s.setAwaits t none) else none
      | none => none

def start (ι : Type) (n : ℕ) : State ι where
  phaseNo := 0
  expected := n
  arrived := 0
  leaving := 0
  awaits _ := none

def system (ι : Type) [DecidableEq ι] (n : ℕ) : System (State ι) (Action ι) where
  start s := s = start ι n
  step := step

/-- The runs of the barrier that expects `n` arrivals. -/
def Run (n : ℕ) : State ι → List (Action ι) → State ι → Prop :=
  (system ι n).Path fun _ _ => True

variable {n : ℕ} {s s' : State ι} {t : ι} {update k : ℕ}

theorem Run.silent (h : s' = s) : Run n s [] s' := by
  rw [h]
  exact System.Path.nil s

theorem Run.act {a : Action ι} (h : step s a = some s') : Run n s [a] s' :=
  System.Path.single True.intro h

theorem Run.arrive (hroom : s.arrived + update ≤ s.expected) (h : s' = s.arrive update) :
    Run n s [.arrive update] s' := by
  apply Run.act
  rw [h, step, if_pos hroom]

theorem Run.leave (hroom : s.leaving < s.expected) (h : s' = s.leave) : Run n s [.leave] s' := by
  apply Run.act
  rw [h, step, if_pos hroom]

theorem Run.complete (hpos : 0 < s.expected) (hfull : s.arrived = s.expected)
    (h : s' = s.complete) : Run n s [.complete] s' := by
  apply Run.act
  rw [h, step, if_pos ⟨hpos, hfull⟩]

theorem Run.await (hfree : s.awaits t = none) (hbegun : k ≤ s.phaseNo)
    (h : s' = s.setAwaits t (some k)) : Run n s [.await t k] s' := by
  apply Run.act
  rw [h, step, if_pos ⟨hfree, hbegun⟩]

theorem Run.resume (hawaits : s.awaits t = some k) (hover : k < s.phaseNo)
    (h : s' = s.setAwaits t none) : Run n s [.resume t] s' := by
  apply Run.act
  simp only [step, hawaits]
  rw [h, if_pos hover]

/-! ## Arrivals in a row -/

theorem step_arrive (h : step s (.arrive update) = some s') :
    s.arrived + update ≤ s.expected ∧ s' = s.arrive update := by
  rw [step] at h
  split_ifs at h with hroom
  exact ⟨hroom, (Option.some.inj h).symm⟩

omit [DecidableEq ι] in
theorem State.arrive_arrive (s : State ι) (u v : ℕ) :
    (s.arrive u).arrive v = s.arrive (u + v) := by
  rw [State.arrive, State.arrive, State.arrive]
  simp only [Nat.add_assoc]

/-- Of arrivals in a row only the sum matters. -/
theorem run_arrives_iff (us : List ℕ) :
    Run n s (us.map Action.arrive) s' ↔
      s' = s.arrive us.sum ∧ (us = [] ∨ s.arrived + us.sum ≤ s.expected) := by
  induction us using List.reverseRecOn generalizing s' with
  | nil =>
      constructor
      · intro h
        exact ⟨h.eq_of_nil, Or.inl rfl⟩
      · rintro ⟨rfl, -⟩
        exact Run.silent rfl
  | append_singleton us u ih =>
      rw [List.map_append, List.map_singleton, List.sum_append, List.sum_singleton]
      constructor
      · intro h
        obtain ⟨t, hpath, -, hstep⟩ := h.exists_last
        obtain ⟨rfl, -⟩ := ih.mp hpath
        obtain ⟨hroom, rfl⟩ := step_arrive hstep
        have hsum : s.arrived + us.sum + u ≤ s.expected := hroom
        rw [State.arrive_arrive]
        exact ⟨rfl, Or.inr (by omega)⟩
      · rintro ⟨rfl, hroom⟩
        have hroom : s.arrived + (us.sum + u) ≤ s.expected :=
          hroom.resolve_left (List.append_ne_nil_of_right_ne_nil _ (List.cons_ne_nil u []))
        have hfirst : Run n s (us.map Action.arrive) (s.arrive us.sum) :=
          ih.mpr ⟨rfl, Or.inr (by omega)⟩
        refine hfirst.append (Run.arrive ?_ (State.arrive_arrive s us.sum u).symm)
        change s.arrived + us.sum + u ≤ s.expected
        omega

end Libhipcxx.Barrier.Phased
