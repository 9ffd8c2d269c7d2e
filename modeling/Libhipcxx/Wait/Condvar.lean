import Libhipcxx.Support.Threads
import Libhipcxx.Support.Transition
import Libhipcxx.Wait.History
import Libhipcxx.Wait.Polling

/-!
# Waiting on a condition variable through the contention table

`__cxx_atomic_wait` and `__cxx_atomic_notify_all` where the platform has no
wait.  The address is hashed to an entry of the contention table, which other
addresses may share; the entry holds a credit, a mutex and a condition
variable.

Threads take one atomic step at a time.  Waiting on the condition variable
releases the mutex and sleeps in one step, and a sleeper that has been woken
takes the mutex again; a broadcast wakes every sleeper of the entry.
-/

namespace Libhipcxx.Wait.Condvar

open Transition Threads

/-- The next atomic operation of a thread; the addresses are `A`, the values
`V`. -/
inductive Point (A V : Type) where
  | idle
  | poll (a : A) (val : V) (i : ℕ)
  | check (a : A) (val : V)
  | lock (a : A) (val : V)
  | storeCredit (a : A) (val : V)
  | loadValue (a : A) (val : V)
  | condvarWait (a : A) (val : V)
  | asleep (a : A) (val : V)
  | relock (a : A) (val : V)
  | unlock (a : A) (val : V)
  | loadCredit (a : A)
  | exchangeCredit (a : A)
  | notifyLock (a : A)
  | notifyUnlock (a : A)
  | condvarBroadcast (a : A)
  deriving DecidableEq

variable {ι A E V : Type} [DecidableEq ι] [DecidableEq A] [DecidableEq E]
  [DecidableEq V]

namespace Point

/-- What a waiter waits for: the address, and the value it does not want. -/
def awaits : Point A V → Option (A × V)
  | poll a val _ => some (a, val)
  | check a val => some (a, val)
  | lock a val => some (a, val)
  | storeCredit a val => some (a, val)
  | loadValue a val => some (a, val)
  | condvarWait a val => some (a, val)
  | asleep a val => some (a, val)
  | relock a val => some (a, val)
  | unlock a val => some (a, val)
  | _ => none

/-- The address that a notifier notifies. -/
def notifies : Point A V → Option A
  | loadCredit a => some a
  | exchangeCredit a => some a
  | notifyLock a => some a
  | notifyUnlock a => some a
  | condvarBroadcast a => some a
  | _ => none

/-- `__libcpp_condvar_broadcast` on an entry. -/
def wake (entry : A → E) (e : E) : Point A V → Point A V
  | asleep a val => if entry a = e then relock a val else asleep a val
  | pc => pc

end Point

structure State (ι A E V : Type) where
  value : A → V
  credit : E → ℤ
  mutex : E → Option ι
  pc : ι → Point A V
  history : History ι

inductive Label (ι A V : Type) where
  | wait (t : ι) (a : A) (val : V)
  | store (t : ι) (a : A) (v : V)
  | notifyAll (t : ι) (a : A)
  | step (t : ι)

namespace State

/-- The thread reads its value, and goes to a point. -/
def observe (s : State ι A E V) (t : ι) (pc : Point A V) : State ι A E V :=
  { s with pc := Function.update s.pc t pc, history := s.history.read t }

/-- The thread takes the mutex of an entry, if it is free. -/
def acquire (s : State ι A E V) (t : ι) (e : E) (pc : Point A V) :
    Option (State ι A E V) :=
  if s.mutex e = none then
    some { s with
      mutex := Function.update s.mutex e (some t)
      pc := Function.update s.pc t pc }
  else none

/-- The thread releases the mutex of an entry. -/
def release (s : State ι A E V) (t : ι) (e : E) (pc : Point A V) :
    State ι A E V :=
  { s with
    mutex := Function.update s.mutex e none
    pc := Function.update s.pc t pc }

/-- The atomic operation of a thread. -/
def next (entry : A → E) (s : State ι A E V) (t : ι) : Option (State ι A E V) :=
  match s.pc t with
  | .poll a val i =>
      some (s.observe t
        (if s.value a = val then
          if i + 1 < pollingCount then .poll a val (i + 1) else .check a val
        else .idle))
  | .check a val =>
      some (s.observe t (if s.value a = val then .lock a val else .idle))
  | .lock a val => s.acquire t (entry a) (.storeCredit a val)
  | .storeCredit a val =>
      some { s with
        credit := Function.update s.credit (entry a) 1
        pc := Function.update s.pc t (.loadValue a val) }
  | .loadValue a val =>
      some (s.observe t
        (if s.value a = val then .condvarWait a val else .unlock a val))
  | .condvarWait a val => some (s.release t (entry a) (.asleep a val))
  | .asleep _ _ => none
  | .relock a val => s.acquire t (entry a) (.unlock a val)
  | .unlock a val => some (s.release t (entry a) (.check a val))
  | .loadCredit a =>
      if s.credit (entry a) = 0 then
        some { s with
          pc := Function.update s.pc t .idle
          history := s.history.complete t }
      else
        some { s with pc := Function.update s.pc t (.exchangeCredit a) }
  | .exchangeCredit a =>
      if s.credit (entry a) = 0 then
        some { s with
          credit := Function.update s.credit (entry a) 0
          pc := Function.update s.pc t .idle
          history := s.history.complete t }
      else
        some { s with
          credit := Function.update s.credit (entry a) 0
          pc := Function.update s.pc t (.notifyLock a) }
  | .notifyLock a => s.acquire t (entry a) (.notifyUnlock a)
  | .notifyUnlock a => some (s.release t (entry a) (.condvarBroadcast a))
  | .condvarBroadcast a =>
      some { s with
        pc := Function.update (fun w => (s.pc w).wake entry (entry a)) t .idle
        history := s.history.complete t }
  | .idle => none

end State

/-- A store may be made by any thread that is outside the functions. -/
def step (entry : A → E) (s : State ι A E V) :
    Label ι A V → Option (State ι A E V)
  | .wait t a val =>
      if s.pc t = .idle then some (s.observe t (.poll a val 0)) else none
  | .store t a v =>
      if s.pc t = .idle then
        some { s with
          value := Function.update s.value a v
          history := s.history.store fun w =>
            (s.pc w).awaits.any fun (b, val) => b = a ∧ val ≠ v }
      else none
  | .notifyAll t a =>
      if s.pc t = .idle then
        some { s with
          pc := Function.update s.pc t (.loadCredit a)
          history := s.history.call t fun w =>
            (s.pc w).awaits.any fun (b, _) => b = a }
      else none
  | .step t => s.next entry t

/-- The table as it is constructed, and any values. -/
def Start (s : State ι A E V) : Prop :=
  (∀ e, s.credit e = 0) ∧ (∀ e, s.mutex e = none) ∧ (∀ t, s.pc t = .idle) ∧
    s.history = .empty

def system (ι A E V : Type) [DecidableEq ι] [DecidableEq A] [DecidableEq E]
    [DecidableEq V] (entry : A → E) : System (State ι A E V) (Label ι A V) where
  start := Start
  step := step entry

/-! ## Owed broadcasts -/

namespace Point

/-- A notifier that has taken the credit of an entry and not yet its mutex. -/
def Locks (entry : A → E) (e : E) : Point A V → Prop
  | notifyLock a => entry a = e
  | _ => False

/-- A notifier that has taken the credit of an entry and not yet broadcast. -/
def Owes (entry : A → E) (e : E) : Point A V → Prop
  | notifyLock a => entry a = e
  | notifyUnlock a => entry a = e
  | condvarBroadcast a => entry a = e
  | _ => False

end Point

/-- A waiter that sleeps although its value has been changed away since it last
read it, and a notification of its address, called after that, has completed,
is owed a broadcast. -/
def NoneForgotten (entry : A → E) (s : State ι A E V) : Prop :=
  ∀ w a val, s.pc w = .asleep a val → s.history.notified w = true →
    ∃ n, (s.pc n).Owes entry (entry a)

/-! ## The invariant -/

namespace Point

/-- A thread that holds the mutex of an entry. -/
def Holds (entry : A → E) (e : E) : Point A V → Prop
  | storeCredit a _ => entry a = e
  | loadValue a _ => entry a = e
  | condvarWait a _ => entry a = e
  | unlock a _ => entry a = e
  | notifyUnlock a => entry a = e
  | _ => False

/-- A waiter that holds the mutex and has set the credit. -/
def Enters (entry : A → E) (e : E) : Point A V → Prop
  | loadValue a _ => entry a = e
  | condvarWait a _ => entry a = e
  | _ => False

/-- A notifier that has had the mutex. -/
def Passed : Point A V → Prop
  | notifyUnlock _ => True
  | condvarBroadcast _ => True
  | _ => False

end Point

/-- The invariant, on the components of a state.  A waiter on its way to sleep
keeps every notifier out of the mutex, so that the broadcast it is owed is
still to come when it sleeps. -/
structure InvAt (entry : A → E) (credit : E → ℤ) (mutex : E → Option ι)
    (pc : ι → Point A V) (history : History ι) : Prop where
  owner : ∀ w e, (pc w).Holds entry e → mutex e = some w
  covered : ∀ n w, history.covers n w = true →
    ∃ a val, (pc n).notifies = some a ∧ (pc w).awaits = some (a, val)
  entering : ∀ w e, (pc w).Enters entry e →
    credit e ≠ 0 ∨ ∃ n, (pc n).Locks entry e
  asleep : ∀ w a val, pc w = .asleep a val →
    credit (entry a) ≠ 0 ∨ ∃ n, (pc n).Owes entry (entry a)
  waiting : ∀ w a val, pc w = .condvarWait a val →
    history.notified w = true → ∃ n, (pc n).Locks entry (entry a)
  locked : ∀ w a val, pc w = .condvarWait a val →
    ∀ n, history.covers n w = true → ¬ (pc n).Passed
  sleeping : ∀ w a val, pc w = .asleep a val →
    history.notified w = true → ∃ n, (pc n).Owes entry (entry a)

def Inv (entry : A → E) (s : State ι A E V) : Prop :=
  InvAt entry s.credit s.mutex s.pc s.history

variable {entry : A → E} {s s' : State ι A E V}

section Points

omit [DecidableEq A] [DecidableEq E] [DecidableEq V]

variable {p : Point A V} {e : E}

theorem not_locks (h : p.notifies = none) : ¬ p.Locks entry e := by
  cases p <;> first | exact id | cases h

theorem not_owes (h : p.notifies = none) : ¬ p.Owes entry e := by
  cases p <;> first | exact id | cases h

theorem not_passed (h : p.notifies = none) : ¬ p.Passed := by
  cases p <;> first | exact id | cases h

theorem owes_of_locks (h : p.Locks entry e) : p.Owes entry e := by
  cases p <;> first | exact h | exact h.elim

theorem holds_of_enters (h : p.Enters entry e) : p.Holds entry e := by
  cases p <;> first | exact h | exact h.elim

theorem not_locks_of_holds {e' : E} (h : p.Holds entry e) : ¬ p.Locks entry e' := by
  cases p <;> first | exact id | exact h.elim

theorem entry_of_owes {a : A} (h : p.notifies = some a)
    (howes : p.Owes entry e) : e = entry a := by
  cases p <;> first | exact howes.elim | (cases h; exact howes.symm)

theorem awaits_of_notifies {a : A} (h : p.notifies = some a) :
    p.awaits = none := by
  cases p <;> first | rfl | cases h

end Points

section Steps

omit [DecidableEq A] [DecidableEq E] [DecidableEq V]

variable {credit : E → ℤ} {mutex : E → Option ι} {pc : ι → Point A V}
  {history : History ι} {t : ι} {p : Point A V}

omit [DecidableEq ι] in
theorem inv_start (h : Start s) : Inv entry s := by
  obtain ⟨hcredit, hmutex, hidle, hhistory⟩ := h
  constructor
  · intro w e hw
    rw [hidle] at hw
    exact hw.elim
  · intro n w hcovers
    rw [hhistory] at hcovers
    cases hcovers
  · intro w e hw
    rw [hidle] at hw
    exact hw.elim
  all_goals
    intro w a val hw
    rw [hidle] at hw
    cases hw

/-- A waiter reads its value and does not fall asleep. -/
theorem inv_observe (h : InvAt entry credit mutex pc history)
    (hfrom : (pc t).notifies = none) (hto : p.notifies = none)
    (hholds : ∀ e, p.Holds entry e → (pc t).Holds entry e)
    (henters : ∀ e, p.Enters entry e → (pc t).Enters entry e)
    (hawake : ∀ a val, p ≠ .asleep a val) :
    InvAt entry credit mutex (Function.update pc t p) (history.read t) := by
  constructor
  · intro w e
    exact imp_update (Q := fun w => mutex e = some w)
      (fun hp => h.owner t e (hholds e hp)) (fun w => h.owner w e) w
  · exact History.Covered.read h.covered hfrom
  · intro w e hw
    have hfirst : credit e ≠ 0 ∨ ∃ n, (pc n).Locks entry e :=
      imp_update (Q := fun _ => credit e ≠ 0 ∨ ∃ n, (pc n).Locks entry e)
        (fun hp => h.entering t e (henters e hp)) (fun w => h.entering w e) w hw
    exact hfirst.imp id (exists_update fun hn => absurd hn (not_locks hfrom))
  · intro w a val hw
    obtain ⟨hwt, hw⟩ := of_update hw (hawake a val)
    exact (h.asleep w a val hw).imp id
      (exists_update fun hn => absurd hn (not_owes hfrom))
  · intro w a val hw hnotified
    obtain ⟨hwt, hnotified⟩ := History.notified_read.mp hnotified
    rw [Function.update_of_ne hwt] at hw
    exact exists_update (fun hn => absurd hn (not_locks hfrom))
      (h.waiting w a val hw hnotified)
  · intro w a val hw n hcovers
    obtain ⟨hwt, hcovers⟩ := History.covers_read.mp hcovers
    rw [Function.update_of_ne hwt] at hw
    intro hpassed
    obtain ⟨hnt, hpassed⟩ :=
      prop_of_update (P := Point.Passed) hpassed (not_passed hto)
    exact h.locked w a val hw n hcovers hpassed
  · intro w a val hw hnotified
    obtain ⟨hwt, hnotified⟩ := History.notified_read.mp hnotified
    rw [Function.update_of_ne hwt] at hw
    exact exists_update (fun hn => absurd hn (not_owes hfrom))
      (h.sleeping w a val hw hnotified)

/-- A thread moves on, and neither reads nor touches the mutex. -/
theorem inv_advance (h : InvAt entry credit mutex pc history)
    (hnotifies : p.notifies = (pc t).notifies) (hawaits : p.awaits = (pc t).awaits)
    (hholds : ∀ e, p.Holds entry e → (pc t).Holds entry e)
    (hlocks : ∀ e, (pc t).Locks entry e → p.Locks entry e)
    (howes : ∀ e, (pc t).Owes entry e → p.Owes entry e)
    (henters : ∀ e, p.Enters entry e → credit e ≠ 0)
    (hpassed : p.Passed → (pc t).Passed)
    (hwait : ∀ a val, p ≠ .condvarWait a val) (hawake : ∀ a val, p ≠ .asleep a val) :
    InvAt entry credit mutex (Function.update pc t p) history := by
  constructor
  · intro w e
    exact imp_update (Q := fun w => mutex e = some w)
      (fun hp => h.owner t e (hholds e hp)) (fun w => h.owner w e) w
  · exact History.Covered.update h.covered hnotifies hawaits
  · intro w e hw
    by_cases hwt : w = t
    · rw [hwt, Function.update_self] at hw
      exact Or.inl (henters e hw)
    · rw [Function.update_of_ne hwt] at hw
      exact (h.entering w e hw).imp id (exists_update (hlocks e))
  · intro w a val hw
    obtain ⟨hwt, hw⟩ := of_update hw (hawake a val)
    exact (h.asleep w a val hw).imp id (exists_update (howes (entry a)))
  · intro w a val hw hnotified
    obtain ⟨hwt, hw⟩ := of_update hw (hwait a val)
    exact exists_update (hlocks (entry a)) (h.waiting w a val hw hnotified)
  · intro w a val hw n hcovers
    obtain ⟨hwt, hw⟩ := of_update hw (hwait a val)
    exact mt (imp_update (Q := fun n => (pc n).Passed) hpassed (fun _ => id) n)
      (h.locked w a val hw n hcovers)
  · intro w a val hw hnotified
    obtain ⟨hwt, hw⟩ := of_update hw (hawake a val)
    exact exists_update (howes (entry a)) (h.sleeping w a val hw hnotified)

omit [DecidableEq ι] in
/-- A waiter sets the credit of an entry. -/
theorem inv_storeCredit [DecidableEq E]
    (h : InvAt entry credit mutex pc history) (e : E) :
    InvAt entry (Function.update credit e 1) mutex pc history := by
  have hraise : ∀ e', credit e' ≠ 0 → Function.update credit e 1 e' ≠ 0 :=
    fun e' => prop_update (P := (· ≠ 0)) Int.one_ne_zero
  constructor
  · exact h.owner
  · exact h.covered
  · intro w e' hw
    exact (h.entering w e' hw).imp (hraise e') id
  · intro w a val hw
    exact (h.asleep w a val hw).imp (hraise (entry a)) id
  · exact h.waiting
  · exact h.locked
  · exact h.sleeping

/-- A thread takes the mutex of an entry: no waiter of the entry is on its way
to sleep. -/
theorem inv_acquire [DecidableEq E] {e : E}
    (h : InvAt entry credit mutex pc history) (hfree : mutex e = none)
    (hnotifies : p.notifies = (pc t).notifies) (hawaits : p.awaits = (pc t).awaits)
    (hentry : ∀ a, (pc t).notifies = some a → entry a = e)
    (howes : ∀ e, (pc t).Owes entry e → p.Owes entry e)
    (hholds : ∀ e', p.Holds entry e' → e' = e)
    (henters : ∀ e, ¬ p.Enters entry e) (hawake : ∀ a val, p ≠ .asleep a val) :
    InvAt entry credit (Function.update mutex e (some t)) (Function.update pc t p)
      history := by
  have hother : ∀ w e', (pc w).Holds entry e' → e' ≠ e := by
    rintro w e' hw rfl
    rw [h.owner w e' hw] at hfree
    cases hfree
  have hlocks : ∀ w e', (pc w).Enters entry e' → (pc t).Locks entry e' →
      p.Locks entry e' := by
    intro w e' hw ht
    refine absurd ?_ (hother w e' (holds_of_enters hw))
    cases hnone : (pc t).notifies with
    | none => exact absurd ht (not_locks hnone)
    | some a => rw [entry_of_owes hnone (owes_of_locks ht), hentry a hnone]
  have hwait : ∀ a val, p ≠ .condvarWait a val := by
    rintro a val rfl
    exact henters (entry a) rfl
  constructor
  · intro w e' hw
    by_cases hwt : w = t
    · rw [hwt, Function.update_self] at hw
      rw [hholds e' hw, Function.update_self, hwt]
    · rw [Function.update_of_ne hwt] at hw
      rw [Function.update_of_ne (hother w e' hw)]
      exact h.owner w e' hw
  · exact History.Covered.update h.covered hnotifies hawaits
  · intro w e' hw
    obtain ⟨hwt, hw⟩ := prop_of_update (P := Point.Enters entry e') hw (henters e')
    exact (h.entering w e' hw).imp id (exists_update (hlocks w e' hw))
  · intro w a val hw
    obtain ⟨hwt, hw⟩ := of_update hw (hawake a val)
    exact (h.asleep w a val hw).imp id (exists_update (howes (entry a)))
  · intro w a val hw hnotified
    obtain ⟨hwt, hw⟩ := of_update hw (hwait a val)
    have henter : (pc w).Enters entry (entry a) := by rw [hw]; rfl
    exact exists_update (hlocks w (entry a) henter) (h.waiting w a val hw hnotified)
  · intro w a val hto n hcovers
    obtain ⟨hwt, hw⟩ := of_update hto (hwait a val)
    have hnt : n ≠ t := by
      rintro rfl
      obtain ⟨b, val', hn, hawaitsw⟩ := h.covered n w hcovers
      have hheld : (pc w).Holds entry (entry a) := by rw [hw]; rfl
      rw [hw] at hawaitsw
      cases hawaitsw
      exact hother w (entry a) hheld (hentry a hn)
    rw [Function.update_of_ne hnt]
    exact h.locked w a val hw n hcovers
  · intro w a val hw hnotified
    obtain ⟨hwt, hw⟩ := of_update hw (hawake a val)
    exact exists_update (howes (entry a)) (h.sleeping w a val hw hnotified)

/-- A thread releases the mutex of an entry.  A waiter that does so to sleep
takes with it what it was promised on entering. -/
theorem inv_release [DecidableEq E] {e : E}
    (h : InvAt entry credit mutex pc history) (hheld : (pc t).Holds entry e)
    (hnotifies : p.notifies = (pc t).notifies) (hawaits : p.awaits = (pc t).awaits)
    (howes : ∀ e, (pc t).Owes entry e → p.Owes entry e)
    (hholds : ∀ e', ¬ p.Holds entry e') (hpassed : p.Passed → (pc t).Passed)
    (hasleep : ∀ a val, p = .asleep a val → pc t = .condvarWait a val) :
    InvAt entry credit (Function.update mutex e none) (Function.update pc t p)
      history := by
  have hlocks : ∀ e', (pc t).Locks entry e' → p.Locks entry e' :=
    fun e' ht => absurd ht (not_locks_of_holds hheld)
  have hwait : ∀ a val, p ≠ .condvarWait a val := by
    rintro a val rfl
    exact hholds (entry a) rfl
  constructor
  · intro w e' hw
    obtain ⟨hwt, hw⟩ := prop_of_update (P := Point.Holds entry e') hw (hholds e')
    have hne : e' ≠ e := by
      rintro rfl
      have hmutex := h.owner w e' hw
      rw [h.owner t e' hheld] at hmutex
      exact hwt (Option.some.inj hmutex).symm
    rw [Function.update_of_ne hne]
    exact h.owner w e' hw
  · exact History.Covered.update h.covered hnotifies hawaits
  · intro w e' hw
    obtain ⟨hwt, hw⟩ := prop_of_update (P := Point.Enters entry e') hw
      fun hp => hholds e' (holds_of_enters hp)
    exact (h.entering w e' hw).imp id (exists_update (hlocks e'))
  · intro w a val hw
    have hfirst : credit (entry a) ≠ 0 ∨ ∃ n, (pc n).Owes entry (entry a) := by
      by_cases hwt : w = t
      · rw [hwt, Function.update_self] at hw
        have henter : (pc t).Enters entry (entry a) := by rw [hasleep a val hw]; rfl
        exact (h.entering t (entry a) henter).imp id
          fun ⟨n, hn⟩ => ⟨n, owes_of_locks hn⟩
      · rw [Function.update_of_ne hwt] at hw
        exact h.asleep w a val hw
    exact hfirst.imp id (exists_update (howes (entry a)))
  · intro w a val hw hnotified
    obtain ⟨hwt, hw⟩ := of_update hw (hwait a val)
    exact exists_update (hlocks (entry a)) (h.waiting w a val hw hnotified)
  · intro w a val hw n hcovers
    obtain ⟨hwt, hw⟩ := of_update hw (hwait a val)
    exact mt (imp_update (Q := fun n => (pc n).Passed) hpassed (fun _ => id) n)
      (h.locked w a val hw n hcovers)
  · intro w a val hw hnotified
    have hfirst : ∃ n, (pc n).Owes entry (entry a) := by
      by_cases hwt : w = t
      · rw [hwt, Function.update_self] at hw
        rw [hwt] at hnotified
        obtain ⟨n, hn⟩ := h.waiting t a val (hasleep a val hw) hnotified
        exact ⟨n, owes_of_locks hn⟩
      · rw [Function.update_of_ne hwt] at hw
        exact h.sleeping w a val hw hnotified
    exact exists_update (howes (entry a)) hfirst

/-- A notifier takes the credit. -/
theorem inv_take [DecidableEq E] {a : A}
    (h : InvAt entry credit mutex pc history) (hpc : pc t = .exchangeCredit a) :
    InvAt entry (Function.update credit (entry a) 0) mutex
      (Function.update pc t (.notifyLock a)) history := by
  have hlocks : ∀ e, (pc t).Locks entry e →
      (Point.notifyLock a : Point A V).Locks entry e := by
    intro e ht
    rw [hpc] at ht
    exact ht.elim
  have howes : ∀ e, (pc t).Owes entry e →
      (Point.notifyLock a : Point A V).Owes entry e := by
    intro e ht
    rw [hpc] at ht
    exact ht.elim
  constructor
  · intro w e
    exact imp_update False.elim (fun w => h.owner w e) w
  · exact History.Covered.update h.covered (by rw [hpc]; rfl) (by rw [hpc]; rfl)
  · intro w e hw
    by_cases he : e = entry a
    · right
      refine ⟨t, ?_⟩
      rw [Function.update_self]
      exact he.symm
    · obtain ⟨hwt, hw⟩ := prop_of_update (P := Point.Enters entry e) hw id
      rw [Function.update_of_ne he]
      exact (h.entering w e hw).imp id (exists_update (hlocks e))
  · intro w b val hw
    obtain ⟨hwt, hw⟩ := of_update hw nofun
    by_cases he : entry b = entry a
    · right
      refine ⟨t, ?_⟩
      rw [Function.update_self]
      exact he.symm
    · rw [Function.update_of_ne he]
      exact (h.asleep w b val hw).imp id (exists_update (howes (entry b)))
  · intro w b val hw hnotified
    obtain ⟨hwt, hw⟩ := of_update hw nofun
    exact exists_update (hlocks (entry b)) (h.waiting w b val hw hnotified)
  · intro w b val hw n hcovers
    obtain ⟨hwt, hw⟩ := of_update hw nofun
    intro hpassed
    obtain ⟨hnt, hpassed⟩ := prop_of_update (P := Point.Passed) hpassed id
    exact h.locked w b val hw n hcovers hpassed
  · intro w b val hw hnotified
    obtain ⟨hwt, hw⟩ := of_update hw nofun
    exact exists_update (howes (entry b)) (h.sleeping w b val hw hnotified)

/-- A notification is called. -/
theorem inv_notifyAll {a : A} {concerns : ι → Bool}
    (h : InvAt entry credit mutex pc history) (hidle : pc t = .idle)
    (hconcerns : ∀ w, concerns w = true → ∃ val, (pc w).awaits = some (a, val)) :
    InvAt entry credit mutex (Function.update pc t (.loadCredit a))
      (history.call t concerns) := by
  have hlocks : ∀ e, (pc t).Locks entry e →
      (Point.loadCredit a : Point A V).Locks entry e := by
    intro e ht
    rw [hidle] at ht
    exact ht.elim
  have howes : ∀ e, (pc t).Owes entry e →
      (Point.loadCredit a : Point A V).Owes entry e := by
    intro e ht
    rw [hidle] at ht
    exact ht.elim
  constructor
  · intro w e
    exact imp_update False.elim (fun w => h.owner w e) w
  · exact History.Covered.call h.covered (congrArg Point.awaits hidle) rfl hconcerns
  · intro w e hw
    obtain ⟨hwt, hw⟩ := prop_of_update (P := Point.Enters entry e) hw id
    exact (h.entering w e hw).imp id (exists_update (hlocks e))
  · intro w b val hw
    obtain ⟨hwt, hw⟩ := of_update hw nofun
    exact (h.asleep w b val hw).imp id (exists_update (howes (entry b)))
  · intro w b val hw hnotified
    obtain ⟨hwt, hw⟩ := of_update hw nofun
    exact exists_update (hlocks (entry b)) (h.waiting w b val hw hnotified)
  · intro w b val hw n hcovers
    obtain ⟨hwt, hw⟩ := of_update hw nofun
    intro hpassed
    obtain ⟨hnt, hpassed⟩ := prop_of_update (P := Point.Passed) hpassed id
    rw [History.covers_call, if_neg hnt] at hcovers
    exact h.locked w b val hw n hcovers hpassed
  · intro w b val hw hnotified
    obtain ⟨hwt, hw⟩ := of_update hw nofun
    exact exists_update (howes (entry b)) (h.sleeping w b val hw hnotified)

/-- A notification completes.  The other threads are where they were, or have
been woken; those that it covers and that sleep, or are about to, are owed
another broadcast. -/
theorem inv_complete {a : A} {pc' : ι → Point A V}
    (h : InvAt entry credit mutex pc history)
    (hnotifies : (pc t).notifies = some a) (hlocks : ∀ e, ¬ (pc t).Locks entry e)
    (hidle : pc' t = .idle)
    (hmoved : ∀ w, w ≠ t → pc' w = pc w ∨
      ∃ b val, pc w = .asleep b val ∧ pc' w = .relock b val)
    (howes : ∀ w b val, pc' w = .asleep b val → ¬ (pc t).Owes entry (entry b))
    (hwait : ∀ w val, pc w = .condvarWait a val → history.covers t w = true →
      ∃ n, (pc n).Locks entry (entry a))
    (hsleep : ∀ w val, pc' w = .asleep a val → history.covers t w = true →
      ∃ n, (pc n).Owes entry (entry a)) :
    InvAt entry credit mutex pc' (history.complete t) := by
  have hback : ∀ {w : ι}, pc' w ≠ .idle → (∀ b val, pc' w ≠ .relock b val) →
      w ≠ t ∧ pc w = pc' w := by
    intro w hne hrelock
    have hwt : w ≠ t := by
      rintro rfl
      exact hne hidle
    rcases hmoved w hwt with heq | ⟨b, val, -, hto⟩
    · exact ⟨hwt, heq.symm⟩
    · exact absurd hto (hrelock b val)
  have hforward : ∀ {n : ι} {b : A}, (pc n).notifies = some b → n ≠ t →
      pc' n = pc n := by
    intro n b hn hnt
    rcases hmoved n hnt with heq | ⟨c, val, hasleep, -⟩
    · exact heq
    · rw [hasleep] at hn
      cases hn
  have hkeepLocks : ∀ {e : E}, (∃ n, (pc n).Locks entry e) →
      ∃ n, (pc' n).Locks entry e := by
    rintro e ⟨n, hn⟩
    have hnt : n ≠ t := by
      rintro rfl
      exact hlocks e hn
    cases hsome : (pc n).notifies with
    | none => exact absurd hn (not_locks hsome)
    | some b => exact ⟨n, by rwa [hforward hsome hnt]⟩
  have hkeepOwes : ∀ {e : E}, ¬ (pc t).Owes entry e →
      (∃ n, (pc n).Owes entry e) → ∃ n, (pc' n).Owes entry e := by
    rintro e ht ⟨n, hn⟩
    have hnt : n ≠ t := by
      rintro rfl
      exact ht hn
    cases hsome : (pc n).notifies with
    | none => exact absurd hn (not_owes hsome)
    | some b => exact ⟨n, by rwa [hforward hsome hnt]⟩
  constructor
  · intro w e hw
    obtain ⟨hwt, heq⟩ := hback (by rintro heq; rw [heq] at hw; exact hw)
      (by rintro b val heq; rw [heq] at hw; exact hw)
    rw [← heq] at hw
    exact h.owner w e hw
  · refine History.Covered.complete h.covered (awaits_of_notifies hnotifies) ?_ ?_
    · intro n b hnt hn
      rwa [hforward hn hnt]
    · intro w hwt
      rcases hmoved w hwt with heq | ⟨c, val, hasleep, hto⟩
      · rw [heq]
      · rw [hasleep, hto]
        rfl
  · intro w e hw
    obtain ⟨hwt, heq⟩ := hback (by rintro heq; rw [heq] at hw; exact hw)
      (by rintro b val heq; rw [heq] at hw; exact hw)
    rw [← heq] at hw
    exact (h.entering w e hw).imp id hkeepLocks
  · intro w b val hw
    obtain ⟨hwt, heq⟩ := hback (by rw [hw]; nofun) (by rw [hw]; nofun)
    exact (h.asleep w b val (heq.trans hw)).imp id (hkeepOwes (howes w b val hw))
  · intro w b val hw hnotified
    obtain ⟨hwt, heq⟩ := hback (by rw [hw]; nofun) (by rw [hw]; nofun)
    have hwaiting := heq.trans hw
    rcases History.notified_complete.mp hnotified with hnotified | hcovers
    · exact hkeepLocks (h.waiting w b val hwaiting hnotified)
    · obtain rfl := History.Covered.address_eq (b := b) h.covered hcovers hnotifies
        (by rw [hwaiting]; rfl)
      exact hkeepLocks (hwait w val hwaiting hcovers)
  · intro w b val hw n hcovers
    obtain ⟨hwt, heq⟩ := hback (by rw [hw]; nofun) (by rw [hw]; nofun)
    obtain ⟨hnt, hcovers⟩ := History.covers_complete.mp hcovers
    obtain ⟨c, val', hc, -⟩ := h.covered n w hcovers
    rw [hforward hc hnt]
    exact h.locked w b val (heq.trans hw) n hcovers
  · intro w b val hw hnotified
    obtain ⟨hwt, heq⟩ := hback (by rw [hw]; nofun) (by rw [hw]; nofun)
    have hasleep := heq.trans hw
    rcases History.notified_complete.mp hnotified with hnotified | hcovers
    · exact hkeepOwes (howes w b val hw) (h.sleeping w b val hasleep hnotified)
    · obtain rfl := History.Covered.address_eq (b := b) h.covered hcovers hnotifies
        (by rw [hasleep]; rfl)
      exact hkeepOwes (howes w _ val hw) (hsleep w val hw hcovers)

end Steps

/-! ## Runs -/

section Runs

omit [DecidableEq A] [DecidableEq V]

omit [DecidableEq E] in
/-- A notifier finds no credit: those that it covers have been promised the
broadcast of another. -/
theorem inv_no_credit {t : ι} {a : A} (h : Inv entry s)
    (hpc : s.pc t = .loadCredit a ∨ s.pc t = .exchangeCredit a)
    (hcredit : s.credit (entry a) = 0) :
    InvAt entry s.credit s.mutex (Function.update s.pc t .idle)
      (s.history.complete t) := by
  have hnotifies : (s.pc t).notifies = some a := by
    rcases hpc with hpc | hpc <;> rw [hpc] <;> rfl
  have howes : ∀ e, ¬ (s.pc t).Owes entry e := by
    rcases hpc with hpc | hpc <;> rw [hpc] <;> exact fun _ => id
  refine inv_complete h hnotifies (fun e ht => howes e (owes_of_locks ht))
    (Function.update_self t _ s.pc) ?_ ?_ ?_ ?_
  · intro w hwt
    exact Or.inl (Function.update_of_ne hwt _ s.pc)
  · intro w b val hw
    exact howes (entry b)
  · intro w val hw hcovers
    have henter : (s.pc w).Enters entry (entry a) := by rw [hw]; rfl
    exact (h.entering w (entry a) henter).resolve_left fun hne => hne hcredit
  · intro w val hw hcovers
    obtain ⟨hwt, hasleep⟩ := of_update hw nofun
    exact (h.asleep w a val hasleep).resolve_left fun hne => hne hcredit

omit [DecidableEq ι] in
theorem wake_cases (entry : A → E) (e : E) (p : Point A V) :
    (p.wake entry e = p ∧ ∀ a val, p = .asleep a val → entry a ≠ e) ∨
      ∃ a val, p = .asleep a val ∧ p.wake entry e = .relock a val := by
  cases p with
  | asleep a val =>
      rw [Point.wake]
      split
      · exact Or.inr ⟨a, val, rfl, rfl⟩
      · rename_i hentry
        refine Or.inl ⟨rfl, ?_⟩
        rintro b val' ⟨⟩
        exact hentry
  | _ => exact Or.inl ⟨rfl, nofun⟩

omit [DecidableEq ι] in
/-- Nobody of the entry sleeps after a broadcast. -/
theorem wake_ne_asleep {a b : A} {val : V} {p : Point A V}
    (h : p.wake entry (entry a) = .asleep b val) : entry b ≠ entry a := by
  rcases wake_cases entry (entry a) p with ⟨heq, hentry⟩ | ⟨c, val', -, hto⟩
  · exact hentry b val (heq.symm.trans h)
  · rw [hto] at h
    cases h

theorem inv_broadcast {t : ι} {a : A} (h : Inv entry s)
    (hpc : s.pc t = .condvarBroadcast a) :
    InvAt entry s.credit s.mutex
      (Function.update (fun w => (s.pc w).wake entry (entry a)) t .idle)
      (s.history.complete t) := by
  refine inv_complete h (by rw [hpc]; rfl) (by rw [hpc]; exact fun _ => id)
    (Function.update_self t _ _) ?_ ?_ ?_ ?_
  · intro w hwt
    rw [Function.update_of_ne hwt]
    exact (wake_cases entry (entry a) (s.pc w)).imp And.left id
  · intro w b val hw howes
    obtain ⟨hwt, hasleep⟩ := of_update hw nofun
    rw [hpc] at howes
    exact wake_ne_asleep hasleep howes.symm
  · intro w val hw hcovers
    have hnot := h.locked w a val hw t hcovers
    rw [hpc] at hnot
    exact absurd trivial hnot
  · intro w val hw hcovers
    obtain ⟨hwt, hasleep⟩ := of_update hw nofun
    exact absurd rfl (wake_ne_asleep hasleep)

end Runs

/-! ### The atomic operation at each point -/

section Operations

omit [DecidableEq A]

variable {t : ι} {a : A} {val : V}

omit [DecidableEq E] in
theorem inv_poll {i : ℕ} (h : Inv entry s) (hpc : s.pc t = .poll a val i) :
    Inv entry (s.observe t
      (if s.value a = val then
        if i + 1 < pollingCount then .poll a val (i + 1) else .check a val
      else .idle)) := by
  refine inv_observe h (by rw [hpc]; rfl) ?_ ?_ ?_ ?_
  · split <;> try split
    all_goals rfl
  · split <;> try split
    all_goals nofun
  · split <;> try split
    all_goals nofun
  · split <;> try split
    all_goals nofun

omit [DecidableEq E] in
theorem inv_check (h : Inv entry s) (hpc : s.pc t = .check a val) :
    Inv entry (s.observe t (if s.value a = val then .lock a val else .idle)) := by
  refine inv_observe h (by rw [hpc]; rfl) ?_ ?_ ?_ ?_
  · split <;> rfl
  · split <;> nofun
  · split <;> nofun
  · split <;> nofun

omit [DecidableEq E] in
theorem inv_loadValue (h : Inv entry s) (hpc : s.pc t = .loadValue a val) :
    Inv entry (s.observe t
      (if s.value a = val then .condvarWait a val else .unlock a val)) := by
  refine inv_observe h (by rw [hpc]; rfl) ?_ ?_ ?_ ?_
  · split <;> rfl
  · rw [hpc]
    split <;> exact fun _ => id
  · rw [hpc]
    split
    · exact fun _ => id
    · nofun
  · split <;> nofun

omit [DecidableEq V]

theorem inv_lock (h : Inv entry s) (hpc : s.pc t = .lock a val)
    (hstep : s.acquire t (entry a) (.storeCredit a val) = some s') : Inv entry s' := by
  obtain ⟨hfree, hsome⟩ := Option.ite_none_right_eq_some.mp hstep
  obtain rfl := Option.some.inj hsome
  exact inv_acquire h hfree (by rw [hpc]; rfl) (by rw [hpc]; rfl)
    (by rw [hpc]; nofun) (by rw [hpc]; nofun) (fun e he => he.symm) nofun nofun

theorem inv_relock (h : Inv entry s) (hpc : s.pc t = .relock a val)
    (hstep : s.acquire t (entry a) (.unlock a val) = some s') : Inv entry s' := by
  obtain ⟨hfree, hsome⟩ := Option.ite_none_right_eq_some.mp hstep
  obtain rfl := Option.some.inj hsome
  exact inv_acquire h hfree (by rw [hpc]; rfl) (by rw [hpc]; rfl)
    (by rw [hpc]; nofun) (by rw [hpc]; nofun) (fun e he => he.symm) nofun nofun

theorem inv_notifyLock (h : Inv entry s) (hpc : s.pc t = .notifyLock a)
    (hstep : s.acquire t (entry a) (.notifyUnlock a) = some s') : Inv entry s' := by
  obtain ⟨hfree, hsome⟩ := Option.ite_none_right_eq_some.mp hstep
  obtain rfl := Option.some.inj hsome
  refine inv_acquire h hfree (by rw [hpc]; rfl) (by rw [hpc]; rfl) ?_
    (by rw [hpc]; exact fun _ => id) (fun e he => he.symm) nofun nofun
  rw [hpc]
  rintro b ⟨⟩
  rfl

/-- The waiter has set the credit when it goes on to read its value. -/
theorem inv_enter (h : Inv entry s) (hpc : s.pc t = .storeCredit a val) :
    InvAt entry (Function.update s.credit (entry a) 1) s.mutex
      (Function.update s.pc t (.loadValue a val)) s.history := by
  refine inv_advance (inv_storeCredit h (entry a)) (by rw [hpc]; rfl)
    (by rw [hpc]; rfl) (by rw [hpc]; exact fun _ => id) (by rw [hpc]; nofun)
    (by rw [hpc]; nofun) ?_ nofun nofun nofun
  intro e hto
  obtain rfl : entry a = e := hto
  rw [Function.update_self]
  exact Int.one_ne_zero

theorem inv_condvarWait (h : Inv entry s) (hpc : s.pc t = .condvarWait a val) :
    Inv entry (s.release t (entry a) (.asleep a val)) := by
  refine inv_release h (by rw [hpc]; rfl) (by rw [hpc]; rfl) (by rw [hpc]; rfl)
    (by rw [hpc]; nofun) nofun nofun ?_
  rintro b val' ⟨⟩
  exact hpc

theorem inv_unlock (h : Inv entry s) (hpc : s.pc t = .unlock a val) :
    Inv entry (s.release t (entry a) (.check a val)) :=
  inv_release h (by rw [hpc]; rfl) (by rw [hpc]; rfl) (by rw [hpc]; rfl)
    (by rw [hpc]; nofun) nofun nofun nofun

theorem inv_notifyUnlock (h : Inv entry s) (hpc : s.pc t = .notifyUnlock a) :
    Inv entry (s.release t (entry a) (.condvarBroadcast a)) :=
  inv_release h (by rw [hpc]; rfl) (by rw [hpc]; rfl) (by rw [hpc]; rfl)
    (by rw [hpc]; exact fun _ => id) nofun (by rw [hpc]; exact id) nofun

omit [DecidableEq E] in
/-- A notifier that finds the credit goes on to take it. -/
theorem inv_loadCredit (h : Inv entry s) (hpc : s.pc t = .loadCredit a) :
    InvAt entry s.credit s.mutex (Function.update s.pc t (.exchangeCredit a)) s.history :=
  inv_advance h (by rw [hpc]; rfl) (by rw [hpc]; rfl) nofun
    (by rw [hpc]; nofun) (by rw [hpc]; nofun) nofun nofun nofun nofun

/-- The exchange finds that another notifier has taken the credit. -/
theorem inv_exchange_no_credit (h : Inv entry s) (hpc : s.pc t = .exchangeCredit a)
    (hcredit : s.credit (entry a) = 0) :
    InvAt entry (Function.update s.credit (entry a) 0) s.mutex
      (Function.update s.pc t .idle) (s.history.complete t) := by
  have hsame : Function.update s.credit (entry a) 0 = s.credit := by
    rw [← hcredit, Function.update_eq_self]
  rw [hsame]
  exact inv_no_credit h (Or.inr hpc) hcredit

end Operations

omit [DecidableEq A] in
theorem inv_next {t : ι} (h : Inv entry s) (hstep : s.next entry t = some s') :
    Inv entry s' := by
  cases hpc : s.pc t with
  | idle | asleep => simp only [State.next, hpc, reduceCtorEq] at hstep
  | poll a val i =>
      simp only [State.next, hpc, Option.some.injEq] at hstep
      exact hstep ▸ inv_poll h hpc
  | check a val =>
      simp only [State.next, hpc, Option.some.injEq] at hstep
      exact hstep ▸ inv_check h hpc
  | lock a val =>
      simp only [State.next, hpc] at hstep
      exact inv_lock h hpc hstep
  | storeCredit a val =>
      simp only [State.next, hpc, Option.some.injEq] at hstep
      exact hstep ▸ inv_enter h hpc
  | loadValue a val =>
      simp only [State.next, hpc, Option.some.injEq] at hstep
      exact hstep ▸ inv_loadValue h hpc
  | condvarWait a val =>
      simp only [State.next, hpc, Option.some.injEq] at hstep
      exact hstep ▸ inv_condvarWait h hpc
  | relock a val =>
      simp only [State.next, hpc] at hstep
      exact inv_relock h hpc hstep
  | unlock a val =>
      simp only [State.next, hpc, Option.some.injEq] at hstep
      exact hstep ▸ inv_unlock h hpc
  | loadCredit a =>
      simp only [State.next, hpc] at hstep
      split at hstep
      · rename_i hcredit
        obtain rfl := Option.some.inj hstep
        exact inv_no_credit h (Or.inl hpc) hcredit
      · obtain rfl := Option.some.inj hstep
        exact inv_loadCredit h hpc
  | exchangeCredit a =>
      simp only [State.next, hpc] at hstep
      split at hstep
      · rename_i hcredit
        obtain rfl := Option.some.inj hstep
        exact inv_exchange_no_credit h hpc hcredit
      · obtain rfl := Option.some.inj hstep
        exact inv_take h hpc
  | notifyLock a =>
      simp only [State.next, hpc] at hstep
      exact inv_notifyLock h hpc hstep
  | notifyUnlock a =>
      simp only [State.next, hpc, Option.some.injEq] at hstep
      exact hstep ▸ inv_notifyUnlock h hpc
  | condvarBroadcast a =>
      simp only [State.next, hpc, Option.some.injEq] at hstep
      exact hstep ▸ inv_broadcast h hpc

theorem inv_step {l : Label ι A V} (h : Inv entry s)
    (hstep : step entry s l = some s') : Inv entry s' := by
  cases l with
  | wait t a val =>
      rw [step] at hstep
      split at hstep
      · rename_i hidle
        obtain rfl := Option.some.inj hstep
        exact inv_observe h (by rw [hidle]; rfl) rfl nofun nofun nofun
      · cases hstep
  | store t a v =>
      rw [step] at hstep
      split at hstep
      · obtain rfl := Option.some.inj hstep
        exact ⟨h.owner, h.covered, h.entering, h.asleep, h.waiting, h.locked,
          h.sleeping⟩
      · cases hstep
  | notifyAll t a =>
      rw [step] at hstep
      split at hstep
      · rename_i hidle
        obtain rfl := Option.some.inj hstep
        refine inv_notifyAll h hidle ?_
        intro w hw
        obtain ⟨⟨b, val⟩, hawaits, hb⟩ := (Option.any_eq_true _ _).mp hw
        obtain rfl : b = a := by simpa using hb
        exact ⟨val, hawaits⟩
      · cases hstep
  | step t => exact inv_next h hstep

/-- In every run, a waiter that sleeps although a notification should have
reached it is owed the broadcast of another notifier, and a broadcast leaves no
sleeper of the entry. -/
theorem condvar_none_forgotten (entry : A → E)
    (h : (system ι A E V entry).Reachable (fun _ _ => True) s) :
    NoneForgotten entry s ∧
    ∀ n a s', s.pc n = .condvarBroadcast a → step entry s (.step n) = some s' →
      ∀ w b val, s'.pc w = .asleep b val → entry b ≠ entry a := by
  have hinv : Inv entry s := by
    refine h.invariant ?_ ?_
    · intro s hs
      exact inv_start hs
    · intro s l s' hinv _ hstep
      exact inv_step hinv hstep
  refine ⟨hinv.sleeping, ?_⟩
  intro n a s' hpc hstep w b val hto
  rw [step, State.next, hpc] at hstep
  obtain rfl := Option.some.inj hstep
  have hw : Function.update (fun w => (s.pc w).wake entry (entry a)) n .idle w =
      .asleep b val := hto
  obtain ⟨hwt, hasleep⟩ := of_update hw nofun
  exact wake_ne_asleep hasleep

/-- The table as it is constructed, and values that are all `false`. -/
def falseValues (ι : Type) : State ι Bool Unit Bool :=
  ⟨fun _ => false, fun _ => 0, fun _ => none, fun _ => .idle, .empty⟩

omit [DecidableEq ι] in
theorem start_falseValues : Start (falseValues ι) :=
  ⟨fun _ => rfl, fun _ => rfl, fun _ => rfl, rfl⟩

/-- A waiter holds the mutex and has read its value; a notifier of another
address takes the credit; the notification of a store finds no credit and
returns; the waiter falls asleep.  The broadcast of the first notifier, which
has yet to take the mutex, is still to come. -/
def creditTaken : List (Label (Fin 3) Bool Bool) :=
  .wait 0 false false :: List.replicate 20 (.step 0) ++
    [.notifyAll 1 true, .step 1, .step 1, .store 2 false true,
      .notifyAll 2 false, .step 2, .step 0]

theorem condvar_none_forgotten_credit_taken :
    ∃ s, (system (Fin 3) Bool Unit Bool fun _ => ()).exec (fun _ _ => True)
        (falseValues (Fin 3)) creditTaken = some s ∧
      ∃ n, (s.pc n).Owes (fun _ => ()) () := by
  obtain ⟨s, hs, hpc, hnotified⟩ : ∃ s,
      (system (Fin 3) Bool Unit Bool fun _ => ()).exec (fun _ _ => True)
        (falseValues (Fin 3)) creditTaken = some s ∧
      s.pc 0 = .asleep false false ∧ s.history.notified 0 = true :=
    ⟨_, rfl, by decide, by decide⟩
  refine ⟨s, hs, ?_⟩
  exact (condvar_none_forgotten (fun _ => ())
    (System.reachable_of_exec start_falseValues hs)).1 0 false false hpc hnotified

theorem condvar_asleep_notified :
    ¬ ∀ s, (system (Fin 3) Bool Unit Bool fun _ => ()).Reachable
        (fun _ _ => True) s →
      ∀ w a val, s.pc w = .asleep a val → s.history.notified w ≠ true := by
  intro h
  obtain ⟨s, hs, hpc, hnotified⟩ : ∃ s,
      (system (Fin 3) Bool Unit Bool fun _ => ()).exec (fun _ _ => True)
        (falseValues (Fin 3)) creditTaken = some s ∧
      s.pc 0 = .asleep false false ∧ s.history.notified 0 = true :=
    ⟨_, rfl, by decide, by decide⟩
  exact h s (System.reachable_of_exec start_falseValues hs) 0 false false hpc
    hnotified

end Libhipcxx.Wait.Condvar
