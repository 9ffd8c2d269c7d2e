import Libhipcxx.Support.Transition
import Mathlib.Logic.Function.Basic

/-!
# Objects with atomic operations

What an object shared by threads is for: an operation called by a thread takes
effect at one moment before it returns, and returns what it found then.  What
operation `k` makes of a value, and what it answers, is `apply k`.

This module is independent of any particular program.  An implementation is
read as such an object: the steps that its users can tell are the calls and the
returns, with what they return; the moments at which calls take effect are for
the proof to choose.
-/

namespace Libhipcxx.AtomicObject

open Transition

/-- Where a thread is: its call is to take effect, or has answered. -/
inductive Point (κ ρ : Type) where
  | idle
  | called (k : κ)
  | answered (r : ρ)
  deriving DecidableEq

structure State (ι κ ρ α : Type) where
  value : α
  pc : ι → Point κ ρ

/-- `write` is a change of the object that no call makes. -/
inductive Action (ι κ ρ α : Type) where
  | call (t : ι) (k : κ)
  | act (t : ι)
  | ret (t : ι) (r : ρ)
  | write (v : α)
  deriving DecidableEq

variable {ι κ ρ α : Type} [DecidableEq ι] [DecidableEq ρ]

namespace State

def setPc (s : State ι κ ρ α) (t : ι) (p : Point κ ρ) : State ι κ ρ α :=
  { s with pc := Function.update s.pc t p }

/-- The call of a thread takes effect. -/
def act (apply : κ → α → α × ρ) (s : State ι κ ρ α) (t : ι) (k : κ) : State ι κ ρ α where
  value := (apply k s.value).1
  pc := Function.update s.pc t (.answered (apply k s.value).2)

end State

def step (apply : κ → α → α × ρ) (s : State ι κ ρ α) :
    Action ι κ ρ α → Option (State ι κ ρ α)
  | .call t k =>
      match s.pc t with
      | .idle => some (s.setPc t (.called k))
      | _ => none
  | .act t =>
      match s.pc t with
      | .called k => some (s.act apply t k)
      | _ => none
  | .ret t r =>
      match s.pc t with
      | .answered r' => if r' = r then some (s.setPc t .idle) else none
      | _ => none
  | .write v => some { s with value := v }

def system (ι κ ρ : Type) {α : Type} [DecidableEq ι] [DecidableEq ρ] (apply : κ → α → α × ρ) :
    System (State ι κ ρ α) (Action ι κ ρ α) where
  start s := ∀ t, s.pc t = .idle
  step := step apply

/-- The runs of the object. -/
def Run (apply : κ → α → α × ρ) :
    State ι κ ρ α → List (Action ι κ ρ α) → State ι κ ρ α → Prop :=
  (system ι κ ρ apply).Path fun _ _ => True

variable {apply : κ → α → α × ρ} {s s' : State ι κ ρ α} {t : ι} {k : κ} {r : ρ} {v : α}

theorem Run.silent (h : s' = s) : Run apply s [] s' := by
  rw [h]
  exact System.Path.nil s

theorem Run.single {a : Action ι κ ρ α} (h : step apply s a = some s') : Run apply s [a] s' :=
  System.Path.single True.intro h

theorem Run.call (hidle : s.pc t = .idle) (h : s' = s.setPc t (.called k)) :
    Run apply s [.call t k] s' := by
  apply Run.single
  simp only [step, hidle]
  rw [h]

theorem Run.act (hcalled : s.pc t = .called k) (h : s' = s.act apply t k) :
    Run apply s [.act t] s' := by
  apply Run.single
  simp only [step, hcalled]
  rw [h]

theorem Run.ret (hanswered : s.pc t = .answered r) (h : s' = s.setPc t .idle) :
    Run apply s [.ret t r] s' := by
  apply Run.single
  simp only [step, hanswered, if_true]
  rw [h]

theorem Run.write (h : s' = { s with value := v }) : Run apply s [.write v] s' := by
  apply Run.single
  rw [h, step]

end Libhipcxx.AtomicObject
