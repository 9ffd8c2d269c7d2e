import Libhipcxx.Barrier.Ledger
import Libhipcxx.Support.Transition
import Mathlib.Data.Int.Notation

/-!
# The generic barrier

`__barrier_base<_CompletionF>` keeps the expected count, the arrived count and
the phase in three atomics.  A program point stands before the atomic
operation, or the completion function, it is named after.  The ledger, the
stage of the completing thread, and the record of each thread's arrival are
not read by the code.

An arrival may be issued only while its phase has not yet been given its whole
quota, and a phase ends with the store of the flipped phase.  So an arrival
for the next phase is issued after that store.
-/

namespace Libhipcxx.Barrier.Generic

open Transition Threads

inductive Pc where
  | idle
  | dropExpected
  | loadPhase (update : ℕ)
  | fetchSub (update : ℕ) (oldPhase : Bool)
  | loadExpected (oldPhase : Bool) (result : ℤ)
  | completion (oldPhase : Bool) (newExpected : ℤ)
  | storeArrived (oldPhase : Bool) (newExpected : ℤ)
  | storePhase (oldPhase : Bool)
  | done (token : Bool)
  | waiting (token : Bool) (phaseNo : ℕ)
  deriving DecidableEq

/-- How far the thread that brought the arrived count to zero has come. -/
inductive Stage where
  | counted
  | completing
  | restoring
  | flipping
  deriving DecidableEq

/-- What an arrival that has not been counted will take off the count. -/
def inFlight : Pc → ℕ
  | .dropExpected => 1
  | .loadPhase update => update
  | .fetchSub update _ => update
  | _ => 0

def dropping : Pc → ℕ
  | .dropExpected => 1
  | _ => 0

/-- The phase of phase number `k`. -/
def parity (k : ℕ) : Bool := decide (k % 2 = 1)

structure State (ι : Type) where
  expected : ℤ
  arrived : ℤ
  phase : Bool
  completions : ℕ
  pc : ι → Pc
  ledger : Ledger
  closing : Option (ι × Stage)
  arrival : ι → Arrival

inductive Label (ι : Type) where
  | arrive (t : ι) (update : ℕ)
  | arriveAndDrop (t : ι)
  | wait (t u : ι)
  | step (t : ι)
  | ret (t : ι)

variable {ι : Type} [DecidableEq ι]

def State.setPc (s : State ι) (t : ι) (pc : Pc) : State ι :=
  { s with pc := Function.update s.pc t pc }

/-- A thread sets out on an arrival: its next step is at `pc`. -/
def State.issue (s : State ι) (t : ι) (update : ℕ) (pc : Pc) : State ι :=
  { s.setPc t pc with
    ledger := s.ledger.issue update
    arrival := Function.update s.arrival t ⟨update, s.ledger.phaseNo, 0⟩ }

/-- `__expected.fetch_sub(1)` in `arrive_and_drop`. -/
def State.dropExpected (s : State ι) (t : ι) : State ι :=
  { s.setPc t (.loadPhase 1) with
    expected := s.expected - 1
    ledger := s.ledger.drop }

/-- `__arrived.fetch_sub(__update) - __update`. -/
def State.fetchSub (s : State ι) (t : ι) (update : ℕ) (oldPhase : Bool) :
    State ι :=
  { s.setPc t (.loadExpected oldPhase (s.arrived - update)) with
    arrived := s.arrived - update
    ledger := s.ledger.count update
    closing := if s.arrived - update = 0 then some (t, .counted) else s.closing
    arrival := Function.update s.arrival t
      { s.arrival t with countedIn := s.ledger.phaseNo } }

/-- The load of `__expected` and the test `0 == __result`. -/
def State.loadExpected (s : State ι) (t : ι) (oldPhase : Bool) (result : ℤ) :
    State ι :=
  if result = 0 then
    { s.setPc t (.completion oldPhase s.expected) with
      closing := some (t, .completing) }
  else s.setPc t (.done oldPhase)

/-- `__completion()`. -/
def State.completion (s : State ι) (t : ι) (oldPhase : Bool)
    (newExpected : ℤ) : State ι :=
  { s.setPc t (.storeArrived oldPhase newExpected) with
    completions := s.completions + 1
    closing := some (t, .restoring) }

/-- `__arrived.store(__new_expected)`. -/
def State.storeArrived (s : State ι) (t : ι) (oldPhase : Bool)
    (newExpected : ℤ) : State ι :=
  { s.setPc t (.storePhase oldPhase) with
    arrived := newExpected
    closing := some (t, .flipping) }

/-- `__phase.store(!__old_phase)`. -/
def State.storePhase (s : State ι) (t : ι) (oldPhase : Bool) : State ι :=
  { s.setPc t (.done oldPhase) with
    phase := !oldPhase
    ledger := s.ledger.close
    closing := none }

/-- A wait takes the token that some thread got from its `arrive`.  Its own
step is one poll of the phase. -/
def step (s : State ι) : Label ι → Option (State ι)
  | .arrive t update =>
      if s.pc t = .idle then some (s.issue t update (.loadPhase update))
      else none
  | .arriveAndDrop t =>
      if s.pc t = .idle then some (s.issue t 1 .dropExpected) else none
  | .wait t u =>
      match s.pc u with
      | .done token =>
          if t = u ∨ s.pc t = .idle then
            some (s.setPc t (.waiting token (s.arrival u).countedIn))
          else none
      | _ => none
  | .step t =>
      match s.pc t with
      | .dropExpected => some (s.dropExpected t)
      | .loadPhase update => some (s.setPc t (.fetchSub update s.phase))
      | .fetchSub update oldPhase => some (s.fetchSub t update oldPhase)
      | .loadExpected oldPhase result =>
          some (s.loadExpected t oldPhase result)
      | .completion oldPhase newExpected =>
          some (s.completion t oldPhase newExpected)
      | .storeArrived oldPhase newExpected =>
          some (s.storeArrived t oldPhase newExpected)
      | .storePhase oldPhase => some (s.storePhase t oldPhase)
      | .waiting token _ =>
          some (if s.phase ≠ token then s.setPc t .idle else s)
      | _ => none
  | .ret t =>
      match s.pc t with
      | .done _ => some (s.setPc t .idle)
      | _ => none

def start (ι : Type) (n : ℕ) : State ι where
  expected := n
  arrived := n
  phase := false
  completions := 0
  pc _ := .idle
  ledger := .start n
  closing := none
  arrival _ := ⟨0, 0, 0⟩

def system (ι : Type) [DecidableEq ι] (n : ℕ) : System (State ι) (Label ι) where
  start s := s = start ι n
  step := step

/-- The updates issued to a phase are positive, as the tree barrier of the same
header asserts, and do not exceed its expected count. -/
def Disciplined (s : State ι) : Label ι → Prop
  | .arrive _ update =>
      0 < update ∧ s.ledger.issued + update ≤ s.ledger.quota
  | .arriveAndDrop _ => s.ledger.issued + 1 ≤ s.ledger.quota
  | _ => True

instance (s : State ι) (l : Label ι) : Decidable (Disciplined s l) := by
  cases l <;> unfold Disciplined <;> infer_instance

/-! ## What a step of each kind does -/

section Cases

variable {s s' : State ι} {t u : ι} {update : ℕ}

theorem step_arrive (h : step s (.arrive t update) = some s') :
    s.pc t = .idle ∧ s' = s.issue t update (.loadPhase update) := by
  obtain ⟨hidle, hsome⟩ := Option.ite_none_right_eq_some.mp h
  exact ⟨hidle, (Option.some.inj hsome).symm⟩

theorem step_arriveAndDrop (h : step s (.arriveAndDrop t) = some s') :
    s.pc t = .idle ∧ s' = s.issue t 1 .dropExpected := by
  obtain ⟨hidle, hsome⟩ := Option.ite_none_right_eq_some.mp h
  exact ⟨hidle, (Option.some.inj hsome).symm⟩

theorem step_wait (h : step s (.wait t u) = some s') :
    ∃ token, s.pc u = .done token ∧ (t = u ∨ s.pc t = .idle) ∧
      s' = s.setPc t (.waiting token (s.arrival u).countedIn) := by
  rw [step] at h
  split at h
  · rename_i token hpc
    obtain ⟨hfree, hsome⟩ := Option.ite_none_right_eq_some.mp h
    exact ⟨token, hpc, hfree, (Option.some.inj hsome).symm⟩
  · cases h

theorem step_ret (h : step s (.ret t) = some s') :
    ∃ token, s.pc t = .done token ∧ s' = s.setPc t .idle := by
  rw [step] at h
  split at h
  · rename_i token hpc
    exact ⟨token, hpc, (Option.some.inj h).symm⟩
  · cases h

/-- One poll of a wait. -/
theorem step_poll {token : Bool} {k : ℕ} (hpc : s.pc t = .waiting token k)
    (h : step s (.step t) = some s') :
    s.phase ≠ token ∧ s' = s.setPc t .idle ∨ s' = s := by
  simp only [step, hpc] at h
  obtain rfl := Option.some.inj h
  split
  · rename_i hphase
    exact Or.inl ⟨hphase, rfl⟩
  · exact Or.inr rfl

/-- A step of a thread inside an operation is that of its point. -/
theorem step_thread (h : step s (.step t) = some s') :
    (s.pc t = .dropExpected ∧ s' = s.dropExpected t) ∨
    (∃ update, s.pc t = .loadPhase update ∧
      s' = s.setPc t (.fetchSub update s.phase)) ∨
    (∃ update oldPhase, s.pc t = .fetchSub update oldPhase ∧
      s' = s.fetchSub t update oldPhase) ∨
    (∃ oldPhase result, s.pc t = .loadExpected oldPhase result ∧
      s' = s.loadExpected t oldPhase result) ∨
    (∃ oldPhase newExpected, s.pc t = .completion oldPhase newExpected ∧
      s' = s.completion t oldPhase newExpected) ∨
    (∃ oldPhase newExpected, s.pc t = .storeArrived oldPhase newExpected ∧
      s' = s.storeArrived t oldPhase newExpected) ∨
    (∃ oldPhase, s.pc t = .storePhase oldPhase ∧
      s' = s.storePhase t oldPhase) ∨
    (∃ token k, s.pc t = .waiting token k ∧
      (s.phase ≠ token ∧ s' = s.setPc t .idle ∨ s' = s)) := by
  cases hpc : s.pc t with
  | idle | done => simp only [step, hpc, reduceCtorEq] at h
  | waiting token k =>
      iterate 7 right
      exact ⟨token, k, rfl, step_poll hpc h⟩
  | dropExpected =>
      simp only [step, hpc] at h
      exact Or.inl ⟨rfl, (Option.some.inj h).symm⟩
  | loadPhase update =>
      simp only [step, hpc] at h
      iterate 1 right
      exact Or.inl ⟨update, rfl, (Option.some.inj h).symm⟩
  | fetchSub update oldPhase =>
      simp only [step, hpc] at h
      iterate 2 right
      exact Or.inl ⟨update, oldPhase, rfl, (Option.some.inj h).symm⟩
  | loadExpected oldPhase result =>
      simp only [step, hpc] at h
      iterate 3 right
      exact Or.inl ⟨oldPhase, result, rfl, (Option.some.inj h).symm⟩
  | completion oldPhase newExpected =>
      simp only [step, hpc] at h
      iterate 4 right
      exact Or.inl ⟨oldPhase, newExpected, rfl, (Option.some.inj h).symm⟩
  | storeArrived oldPhase newExpected =>
      simp only [step, hpc] at h
      iterate 5 right
      exact Or.inl ⟨oldPhase, newExpected, rfl, (Option.some.inj h).symm⟩
  | storePhase oldPhase =>
      simp only [step, hpc] at h
      iterate 6 right
      exact Or.inl ⟨oldPhase, rfl, (Option.some.inj h).symm⟩

theorem step_cases {l : Label ι} (h : step s l = some s') :
    (∃ t update, l = .arrive t update ∧ s.pc t = .idle ∧
      s' = s.issue t update (.loadPhase update)) ∨
    (∃ t, l = .arriveAndDrop t ∧ s.pc t = .idle ∧
      s' = s.issue t 1 .dropExpected) ∨
    (∃ t, s.pc t = .dropExpected ∧ s' = s.dropExpected t) ∨
    (∃ t update, s.pc t = .loadPhase update ∧
      s' = s.setPc t (.fetchSub update s.phase)) ∨
    (∃ t update oldPhase, s.pc t = .fetchSub update oldPhase ∧
      s' = s.fetchSub t update oldPhase) ∨
    (∃ t oldPhase result, s.pc t = .loadExpected oldPhase result ∧
      s' = s.loadExpected t oldPhase result) ∨
    (∃ t oldPhase newExpected, s.pc t = .completion oldPhase newExpected ∧
      s' = s.completion t oldPhase newExpected) ∨
    (∃ t oldPhase newExpected, s.pc t = .storeArrived oldPhase newExpected ∧
      s' = s.storeArrived t oldPhase newExpected) ∨
    (∃ t oldPhase, s.pc t = .storePhase oldPhase ∧
      s' = s.storePhase t oldPhase) ∨
    (∃ t u token, s.pc u = .done token ∧ (t = u ∨ s.pc t = .idle) ∧
      s' = s.setPc t (.waiting token (s.arrival u).countedIn)) ∨
    (∃ t token k, s.pc t = .waiting token k ∧
      (s.phase ≠ token ∧ s' = s.setPc t .idle ∨ s' = s)) ∨
    (∃ t token, s.pc t = .done token ∧ s' = s.setPc t .idle) := by
  cases l with
  | arrive t update => exact Or.inl ⟨t, update, rfl, step_arrive h⟩
  | arriveAndDrop t => exact Or.inr (Or.inl ⟨t, rfl, step_arriveAndDrop h⟩)
  | wait t u =>
      iterate 9 right
      exact Or.inl ⟨t, u, step_wait h⟩
  | step t =>
      iterate 2 right
      rcases step_thread h with hdrop | hload | hsub | hexpected | hcompletion |
        harrived | hphase | hpoll
      · exact Or.inl ⟨t, hdrop⟩
      · exact Or.inr (Or.inl ⟨t, hload⟩)
      · exact Or.inr (Or.inr (Or.inl ⟨t, hsub⟩))
      · exact Or.inr (Or.inr (Or.inr (Or.inl ⟨t, hexpected⟩)))
      · exact Or.inr (Or.inr (Or.inr (Or.inr (Or.inl ⟨t, hcompletion⟩))))
      · iterate 5 right
        exact Or.inl ⟨t, harrived⟩
      · iterate 6 right
        exact Or.inl ⟨t, hphase⟩
      · iterate 8 right
        exact Or.inl ⟨t, hpoll⟩
  | ret t =>
      iterate 11 right
      exact ⟨t, step_ret h⟩

end Cases

end Libhipcxx.Barrier.Generic
