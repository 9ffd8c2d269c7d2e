import Libhipcxx.Barrier.Ledger
import Libhipcxx.Barrier.PackedWord
import Libhipcxx.Support.Transition

/-!
# The packed barrier

`__barrier_base<__empty_completion>` run by any finite set of threads.  A
program point stands before an atomic operation on the word; the ledger, the
thread whose second addition is outstanding, and the record of each thread's
arrival are not read by the code.

An arrival may be issued only while its phase has not yet been given its whole
quota.  So one that is issued after a flip belongs to the new phase, and a
thread that has observed the flip may issue it.
-/

namespace Libhipcxx.Barrier.Packed

open Transition Threads

inductive Pc where
  | idle
  | dropAdd
  | arriveAdd (update : ℕ)
  | reAdd (old : BitVec 64)
  | done (token : BitVec 64)
  | waiting (token : BitVec 64)
  | waitingParity (parity : Bool)
  deriving DecidableEq

/-- What an arrival that has not been counted will add to the count. -/
def inFlight : Pc → ℕ
  | .dropAdd => 1
  | .arriveAdd update => update
  | _ => 0

def dropping : Pc → ℕ
  | .dropAdd => 1
  | _ => 0

/-- No atomic operation on the barrier but the loads of a wait is ahead. -/
def quiet : Pc → Prop
  | .idle | .done _ | .waiting _ | .waitingParity _ => True
  | _ => False

structure State (ι : Type) where
  word : BitVec 64
  pc : ι → Pc
  ledger : Ledger
  completer : Option ι
  arrival : ι → Arrival

inductive Label (ι : Type) where
  | arrive (t : ι) (update : ℕ)
  | arriveAndDrop (t : ι)
  | wait (t : ι) (token : BitVec 64)
  | waitParity (t : ι) (parity : Bool)
  | step (t : ι)
  | ret (t : ι)

variable {ι : Type} [DecidableEq ι]

def State.setPc (s : State ι) (t : ι) (pc : Pc) : State ι :=
  { s with pc := Function.update s.pc t pc }

/-- A thread sets out on an arrival: its next step is at `pc`. -/
def State.issue (s : State ι) (t : ι) (update : ℕ) (pc : Pc) : State ι :=
  { s.setPc t pc with
    ledger := s.ledger.issue update
    arrival := Function.update s.arrival t ⟨update, s.ledger.phaseNo, 0⟩ }

/-- The `fetch_add` of `arrive_and_drop`. -/
def State.dropAdd (s : State ι) (t : ι) : State ι :=
  { s.setPc t (.arriveAdd 1) with
    word := s.word + expectedUnit
    ledger := s.ledger.drop }

/-- The first `fetch_add` of `arrive`, and the test of the phase bit. -/
def State.arriveAdd (s : State ι) (t : ι) (update : ℕ) : State ι :=
  { s.setPc t (if flips s.word (inc update) then .reAdd s.word
      else .done (s.word &&& phaseBit)) with
    word := s.word + inc update
    ledger := s.ledger.countAndClose update
    completer := if flips s.word (inc update) then some t else s.completer
    arrival := Function.update s.arrival t
      { s.arrival t with countedIn := s.ledger.phaseNo } }

/-- The second `fetch_add` of `arrive`. -/
def State.reAdd (s : State ι) (t : ι) (old : BitVec 64) : State ι :=
  { s.setPc t (.done (old &&& phaseBit)) with
    word := s.word + reset old
    completer := if s.completer = some t then none else s.completer }

section Fields

variable (s : State ι) (t : ι) (update : ℕ) (old : BitVec 64)

@[simp] theorem dropAdd_word : (s.dropAdd t).word = s.word + expectedUnit := rfl

@[simp] theorem dropAdd_ledger : (s.dropAdd t).ledger = s.ledger.drop := rfl

@[simp] theorem dropAdd_completer : (s.dropAdd t).completer = s.completer := rfl

@[simp] theorem arriveAdd_word :
    (s.arriveAdd t update).word = s.word + inc update := rfl

@[simp] theorem arriveAdd_ledger :
    (s.arriveAdd t update).ledger = s.ledger.countAndClose update := rfl

@[simp] theorem reAdd_word :
    (s.reAdd t old).word = s.word + reset old := rfl

@[simp] theorem reAdd_pc :
    (s.reAdd t old).pc =
      Function.update s.pc t (.done (old &&& phaseBit)) := rfl

@[simp] theorem reAdd_ledger : (s.reAdd t old).ledger = s.ledger := by
  simp only [State.reAdd, State.setPc]

end Fields

def step (s : State ι) : Label ι → Option (State ι)
  | .arrive t update =>
      if s.pc t = .idle then some (s.issue t update (.arriveAdd update))
      else none
  | .arriveAndDrop t =>
      if s.pc t = .idle then some (s.issue t 1 .dropAdd) else none
  | .wait t token =>
      if s.pc t = .idle then some (s.setPc t (.waiting token)) else none
  | .waitParity t parity =>
      if s.pc t = .idle then some (s.setPc t (.waitingParity parity))
      else none
  | .step t =>
      match s.pc t with
      | .dropAdd => some (s.dropAdd t)
      | .arriveAdd update => some (s.arriveAdd t update)
      | .reAdd old => some (s.reAdd t old)
      | .waiting token =>
          some (if tryWait s.word token then s.setPc t .idle else s)
      | .waitingParity parity =>
          some (if tryWaitParity s.word parity then s.setPc t .idle else s)
      | _ => none
  | .ret t =>
      match s.pc t with
      | .done _ => some (s.setPc t .idle)
      | _ => none

def start (ι : Type) (n : ℕ) : State ι where
  word := init n
  pc _ := .idle
  ledger := .start n
  completer := none
  arrival _ := ⟨0, 0, 0⟩

def system (ι : Type) [DecidableEq ι] (n : ℕ) : System (State ι) (Label ι) where
  start s := s = start ι n
  step := step

/-! ## Conditions on runs -/

/-- The updates issued to a phase do not exceed its expected count. -/
def Disciplined (s : State ι) : Label ι → Prop
  | .arrive _ update => s.ledger.issued + update ≤ s.ledger.quota
  | .arriveAndDrop _ => s.ledger.issued + 1 ≤ s.ledger.quota
  | _ => True

/-- The next step at this point completes the phase. -/
def Pc.CountsLast (g : Ledger) : Pc → Prop
  | .arriveAdd update => g.CountsLast update
  | _ => False

instance (g : Ledger) (pc : Pc) : Decidable (pc.CountsLast g) := by
  cases pc <;> unfold Pc.CountsLast <;> infer_instance

/-- The step is the arrival that completes the phase. -/
def CountsLast (s : State ι) : Label ι → Prop
  | .step t => (s.pc t).CountsLast s.ledger
  | _ => False

/-- No phase is completed while the previous completing thread still has to
add the expected count again. -/
structure Orderly (s : State ι) (l : Label ι) : Prop where
  disciplined : Disciplined s l
  reset_done : CountsLast s l → s.completer = none

/-- Besides, a completed phase leaves someone behind. -/
structure Clean (s : State ι) (l : Label ι) : Prop extends Orderly s l where
  remains : CountsLast s l → s.ledger.drops < s.ledger.quota

instance (s : State ι) (l : Label ι) : Decidable (Disciplined s l) := by
  cases l <;> unfold Disciplined <;> infer_instance

instance (s : State ι) (l : Label ι) : Decidable (CountsLast s l) := by
  cases l <;> unfold CountsLast <;> infer_instance

instance (s : State ι) (l : Label ι) : Decidable (Orderly s l) :=
  decidable_of_iff
    (Disciplined s l ∧ (CountsLast s l → s.completer = none))
    ⟨fun h => ⟨h.1, h.2⟩, fun h => ⟨h.disciplined, h.reset_done⟩⟩

instance (s : State ι) (l : Label ι) : Decidable (Clean s l) :=
  decidable_of_iff
    (Orderly s l ∧ (CountsLast s l → s.ledger.drops < s.ledger.quota))
    ⟨fun h => ⟨h.1, h.2⟩, fun h => ⟨h.toOrderly, h.remains⟩⟩

omit [DecidableEq ι] in
theorem countsLast_iff {s : State ι} {l : Label ι} :
    CountsLast s l ↔ ∃ t update, l = .step t ∧ s.pc t = .arriveAdd update ∧
      s.ledger.CountsLast update := by
  constructor
  · intro h
    cases l with
    | step t =>
        rw [CountsLast] at h
        cases hpc : s.pc t with
        | arriveAdd update =>
            rw [hpc] at h
            exact ⟨t, update, rfl, hpc, h⟩
        | idle | dropAdd | reAdd _ | done _ | waiting _ | waitingParity _ =>
            rw [hpc] at h
            exact h.elim
    | arrive _ _ | arriveAndDrop _ | wait _ _ | waitParity _ _ | ret _ =>
        exact h.elim
  · rintro ⟨t, update, rfl, hpc, hlast⟩
    rw [CountsLast, hpc]
    exact hlast

/-- An arrival that does not complete the phase is only counted. -/
theorem arriveAdd_of_not_last {s : State ι} {t : ι} {update : ℕ}
    (hflips : flips s.word (inc update) = false)
    (hlast : ¬ s.ledger.CountsLast update) :
    (s.arriveAdd t update).pc =
        Function.update s.pc t (.done (s.word &&& phaseBit)) ∧
      (s.arriveAdd t update).ledger = s.ledger.count update ∧
      (s.arriveAdd t update).completer = s.completer := by
  simp only [State.arriveAdd, State.setPc, Ledger.countAndClose, hflips, hlast,
    Bool.false_eq_true, ↓reduceIte, and_self]

/-- The arrival that completes the phase closes it and becomes the completing
thread. -/
theorem arriveAdd_of_last {s : State ι} {t : ι} {update : ℕ}
    (hflips : flips s.word (inc update) = true)
    (hlast : s.ledger.CountsLast update) :
    (s.arriveAdd t update).pc = Function.update s.pc t (.reAdd s.word) ∧
      (s.arriveAdd t update).ledger = (s.ledger.count update).close ∧
      (s.arriveAdd t update).completer = some t := by
  simp only [State.arriveAdd, State.setPc, Ledger.countAndClose, hflips, hlast,
    ↓reduceIte, and_self]

/-! ## What a step of each kind does -/

section Cases

variable {s s' : State ι} {t : ι} {update : ℕ}

theorem step_arrive (h : step s (.arrive t update) = some s') :
    s.pc t = .idle ∧ s' = s.issue t update (.arriveAdd update) := by
  obtain ⟨hidle, hsome⟩ := Option.ite_none_right_eq_some.mp h
  exact ⟨hidle, (Option.some.inj hsome).symm⟩

theorem step_arriveAndDrop (h : step s (.arriveAndDrop t) = some s') :
    s.pc t = .idle ∧ s' = s.issue t 1 .dropAdd := by
  obtain ⟨hidle, hsome⟩ := Option.ite_none_right_eq_some.mp h
  exact ⟨hidle, (Option.some.inj hsome).symm⟩

/-- The thread moves between points without an atomic addition ahead. -/
def MovesQuietly (s : State ι) (l : Label ι) (s' : State ι) : Prop :=
  ∃ t pc, ¬ CountsLast s l ∧ quiet (s.pc t) ∧ quiet pc ∧
    (∀ token, pc = .done token → s.pc t = .done token) ∧ s' = s.setPc t pc

theorem step_wait {token : BitVec 64} (h : step s (.wait t token) = some s') :
    MovesQuietly s (.wait t token) s' := by
  obtain ⟨hidle, hsome⟩ := Option.ite_none_right_eq_some.mp h
  refine ⟨t, .waiting token, id, ?_, trivial, by simp, (Option.some.inj hsome).symm⟩
  rw [hidle]
  trivial

theorem step_waitParity {parity : Bool}
    (h : step s (.waitParity t parity) = some s') :
    MovesQuietly s (.waitParity t parity) s' := by
  obtain ⟨hidle, hsome⟩ := Option.ite_none_right_eq_some.mp h
  refine ⟨t, .waitingParity parity, id, ?_, trivial, by simp,
    (Option.some.inj hsome).symm⟩
  rw [hidle]
  trivial

theorem step_ret (h : step s (.ret t) = some s') :
    MovesQuietly s (.ret t) s' := by
  rw [step] at h
  split at h
  · rename_i token hpc
    refine ⟨t, .idle, id, ?_, trivial, by simp, (Option.some.inj h).symm⟩
    rw [hpc]
    trivial
  · cases h

/-- One poll of a wait, which ends it or leaves everything as it is. -/
theorem movesQuietly_poll {c : Prop} [Decidable c] (hquiet : quiet (s.pc t))
    (h : s' = if c then s.setPc t .idle else s) :
    MovesQuietly s (.step t) s' := by
  have hlast : ¬ CountsLast s (.step t) := by
    intro hlast
    obtain ⟨u, update, hl, hpc, -⟩ := countsLast_iff.mp hlast
    cases hl
    rw [hpc] at hquiet
    exact hquiet
  subst h
  split
  · exact ⟨t, .idle, hlast, hquiet, trivial, by simp, rfl⟩
  · refine ⟨t, s.pc t, hlast, hquiet, hquiet, fun _ h => h, ?_⟩
    simp only [State.setPc, Function.update_eq_self]

/-- A step of a thread inside an operation is that of its point. -/
theorem step_thread (h : step s (.step t) = some s') :
    (s.pc t = .dropAdd ∧ s' = s.dropAdd t) ∨
    (∃ update, s.pc t = .arriveAdd update ∧ s' = s.arriveAdd t update) ∨
    (∃ old, s.pc t = .reAdd old ∧ s' = s.reAdd t old) ∨
    MovesQuietly s (.step t) s' := by
  cases hpc : s.pc t with
  | idle | done => simp only [step, hpc, reduceCtorEq] at h
  | dropAdd =>
      simp only [step, hpc] at h
      exact Or.inl ⟨rfl, (Option.some.inj h).symm⟩
  | arriveAdd update =>
      simp only [step, hpc] at h
      exact Or.inr (Or.inl ⟨update, rfl, (Option.some.inj h).symm⟩)
  | reAdd old =>
      simp only [step, hpc] at h
      exact Or.inr (Or.inr (Or.inl ⟨old, rfl, (Option.some.inj h).symm⟩))
  | waiting token =>
      simp only [step, hpc] at h
      have hquiet : quiet (s.pc t) := by rw [hpc]; trivial
      exact Or.inr (Or.inr (Or.inr
        (movesQuietly_poll hquiet (Option.some.inj h).symm)))
  | waitingParity parity =>
      simp only [step, hpc] at h
      have hquiet : quiet (s.pc t) := by rw [hpc]; trivial
      exact Or.inr (Or.inr (Or.inr
        (movesQuietly_poll hquiet (Option.some.inj h).symm)))

theorem step_cases {l : Label ι} (h : step s l = some s') :
    (∃ t update, l = .arrive t update ∧ s.pc t = .idle ∧
      s' = s.issue t update (.arriveAdd update)) ∨
    (∃ t, l = .arriveAndDrop t ∧ s.pc t = .idle ∧ s' = s.issue t 1 .dropAdd) ∨
    (∃ t, l = .step t ∧ s.pc t = .dropAdd ∧ s' = s.dropAdd t) ∨
    (∃ t update, l = .step t ∧ s.pc t = .arriveAdd update ∧
      s' = s.arriveAdd t update) ∨
    (∃ t old, l = .step t ∧ s.pc t = .reAdd old ∧ s' = s.reAdd t old) ∨
    (∃ t pc, ¬ CountsLast s l ∧ quiet (s.pc t) ∧ quiet pc ∧
      (∀ token, pc = .done token → s.pc t = .done token) ∧
      s' = s.setPc t pc) := by
  cases l with
  | arrive t update => exact Or.inl ⟨t, update, rfl, step_arrive h⟩
  | arriveAndDrop t => exact Or.inr (Or.inl ⟨t, rfl, step_arriveAndDrop h⟩)
  | wait t token =>
      iterate 5 right
      exact step_wait h
  | waitParity t parity =>
      iterate 5 right
      exact step_waitParity h
  | step t =>
      iterate 2 right
      rcases step_thread h with hdrop | ⟨update, hadd⟩ | ⟨old, hreAdd⟩ | hquiet
      · exact Or.inl ⟨t, rfl, hdrop⟩
      · exact Or.inr (Or.inl ⟨t, update, rfl, hadd⟩)
      · exact Or.inr (Or.inr (Or.inl ⟨t, old, rfl, hreAdd⟩))
      · exact Or.inr (Or.inr (Or.inr hquiet))
  | ret t =>
      iterate 5 right
      exact step_ret h

end Cases

end Libhipcxx.Barrier.Packed
