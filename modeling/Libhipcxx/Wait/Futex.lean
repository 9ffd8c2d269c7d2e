import Libhipcxx.Support.Threads
import Libhipcxx.Support.Transition
import Libhipcxx.Wait.History
import Libhipcxx.Wait.Polling
import Mathlib.Data.Fintype.Basic

/-!
# Waiting on a futex through the contention table

`__cxx_atomic_wait` and `__cxx_atomic_notify_all` for a type the platform does
not wait on directly.  The address is hashed to an entry of the contention
table, which other addresses may share; the entry holds a flag for waiters and
a version, and the futex is on the version.

Threads take one atomic step at a time.  A futex wait sleeps only if the
version is still the one that was loaded, and a wake wakes every sleeper of the
entry.  The timeout of the wait is left out.
-/

namespace Libhipcxx.Wait.Futex

open Transition Threads

/-- The next atomic operation of a thread; the addresses are `A`, the values
`V`. -/
inductive Point (A V : Type) where
  | idle
  | poll (a : A) (val : V) (i : ℕ)
  | check (a : A) (val : V)
  | storeWaiters (a : A) (val : V)
  | loadVersion (a : A) (val : V)
  | loadValue (a : A) (val : V) (version : BitVec 32)
  | platformWait (a : A) (val : V) (version : BitVec 32)
  | asleep (a : A) (val : V)
  | addVersion (a : A)
  | exchangeWaiters (a : A)
  | platformWake (a : A)
  deriving DecidableEq

variable {ι A E V : Type} [DecidableEq ι] [DecidableEq A] [DecidableEq E]
  [DecidableEq V]

namespace Point

/-- What a waiter waits for: the address, and the value it does not want. -/
def awaits : Point A V → Option (A × V)
  | poll a val _ => some (a, val)
  | check a val => some (a, val)
  | storeWaiters a val => some (a, val)
  | loadVersion a val => some (a, val)
  | loadValue a val _ => some (a, val)
  | platformWait a val _ => some (a, val)
  | asleep a val => some (a, val)
  | _ => none

/-- The address that a notifier notifies. -/
def notifies : Point A V → Option A
  | addVersion a => some a
  | exchangeWaiters a => some a
  | platformWake a => some a
  | _ => none

/-- `__libcpp_platform_wake` on an entry. -/
def wake (entry : A → E) (e : E) : Point A V → Point A V
  | asleep a val => if entry a = e then check a val else asleep a val
  | pc => pc

end Point

structure State (ι A E V : Type) where
  value : A → V
  waiters : E → ℤ
  version : E → BitVec 32
  pc : ι → Point A V
  history : History ι

inductive Label (ι A V : Type) where
  | wait (t : ι) (a : A) (val : V)
  | store (t : ι) (a : A) (v : V)
  | notifyAll (t : ι) (a : A)
  | step (t : ι)

namespace State

/-- The thread reads its value, and goes to a point. -/
def observe (s : State ι A E V) (t : ι) (pc : Point A V) : State ι A E V :=
  { s with pc := Function.update s.pc t pc, history := s.history.read t }

/-- The atomic operation of a thread. -/
def next (entry : A → E) (s : State ι A E V) (t : ι) : Option (State ι A E V) :=
  match s.pc t with
  | .poll a val i =>
      some (s.observe t
        (if s.value a = val then
          if i + 1 < pollingCount then .poll a val (i + 1) else .check a val
        else .idle))
  | .check a val =>
      some (s.observe t (if s.value a = val then .storeWaiters a val else .idle))
  | .storeWaiters a val =>
      some { s with
        waiters := Function.update s.waiters (entry a) 1
        pc := Function.update s.pc t (.loadVersion a val) }
  | .loadVersion a val =>
      some { s with
        pc := Function.update s.pc t (.loadValue a val (s.version (entry a))) }
  | .loadValue a val version =>
      some (s.observe t
        (if s.value a = val then .platformWait a val version else .check a val))
  | .platformWait a val version =>
      some { s with
        pc := Function.update s.pc t
          (if s.version (entry a) = version then .asleep a val
            else .check a val) }
  | .addVersion a =>
      some { s with
        version := Function.update s.version (entry a) (s.version (entry a) + 1)
        pc := Function.update s.pc t (.exchangeWaiters a) }
  | .exchangeWaiters a =>
      if s.waiters (entry a) ≠ 0 then
        some { s with
          waiters := Function.update s.waiters (entry a) 0
          pc := Function.update s.pc t (.platformWake a) }
      else
        some { s with
          waiters := Function.update s.waiters (entry a) 0
          pc := Function.update s.pc t .idle
          history := s.history.complete t }
  | .platformWake a =>
      some { s with
        pc := Function.update (fun w => (s.pc w).wake entry (entry a)) t .idle
        history := s.history.complete t }
  | .asleep _ _ => none
  | .idle => none

end State

/-- A store may be made by any thread that is outside the functions. -/
def step (entry : A → E) (s : State ι A E V) :
    Label ι A V → Option (State ι A E V)
  | .wait t a val =>
      if s.pc t = .idle then some (s.observe t (.poll a val 0)) else none
  | .store t a v =>
      if s.pc t = .idle then
        some { s with
          value := Function.update s.value a v
          history := s.history.store fun w =>
            (s.pc w).awaits.any fun (b, val) => b = a ∧ val ≠ v }
      else none
  | .notifyAll t a =>
      if s.pc t = .idle then
        some { s with
          pc := Function.update s.pc t (.addVersion a)
          history := s.history.call t fun w =>
            (s.pc w).awaits.any fun (b, _) => b = a }
      else none
  | .step t => s.next entry t

/-- The table as it is constructed, and any values. -/
def Start (s : State ι A E V) : Prop :=
  (∀ e, s.waiters e = 0) ∧ (∀ e, s.version e = 0) ∧ (∀ t, s.pc t = .idle) ∧
    s.history = .empty

def system (ι A E V : Type) [DecidableEq ι] [DecidableEq A] [DecidableEq E]
    [DecidableEq V] (entry : A → E) : System (State ι A E V) (Label ι A V) where
  start := Start
  step := step entry

/-! ## Runs without interference -/

namespace Point

/-- A waiter that has loaded the version of an entry and not yet come to its
futex wait. -/
def HasLoaded (entry : A → E) (e : E) (version : BitVec 32) : Point A V → Prop
  | loadValue a _ loaded => entry a = e ∧ loaded = version
  | platformWait a _ loaded => entry a = e ∧ loaded = version
  | _ => False

/-- A waiter that has set the flag of an entry and will sleep if the version
remains as it is. -/
def Committed (entry : A → E) (e : E) (version : BitVec 32) : Point A V → Prop
  | loadVersion a _ => entry a = e
  | pc => pc.HasLoaded entry e version

/-- A notifier that has taken the flag of an entry. -/
def Wakes (entry : A → E) (e : E) : Point A V → Prop
  | platformWake a => entry a = e
  | _ => False

end Point

/-- What keeps other notifiers out of the way of an atomic operation.  The
version does not come round to one that is still held, the flag is not taken
while a waiter of the entry is on its way to sleep, and it is not found clear
while another notifier has yet to wake. -/
def State.Undisturbed (entry : A → E) (s : State ι A E V) : Point A V → Prop
  | .addVersion a =>
      ∀ w, ¬ (s.pc w).HasLoaded entry (entry a) (s.version (entry a) + 1)
  | .exchangeWaiters a =>
      if s.waiters (entry a) ≠ 0 then
        ∀ w, ¬ (s.pc w).Committed entry (entry a) (s.version (entry a))
      else ∀ n, ¬ (s.pc n).Wakes entry (entry a)
  | _ => True

def Undisturbed (entry : A → E) (s : State ι A E V) : Label ι A V → Prop
  | .step t => s.Undisturbed entry (s.pc t)
  | _ => True

section Decidable

omit [DecidableEq ι] [DecidableEq A] [DecidableEq V]

instance (entry : A → E) (e : E) (version : BitVec 32) (p : Point A V) :
    Decidable (p.HasLoaded entry e version) := by
  cases p <;> unfold Point.HasLoaded <;> infer_instance

instance (entry : A → E) (e : E) (version : BitVec 32) (p : Point A V) :
    Decidable (p.Committed entry e version) := by
  cases p <;> unfold Point.Committed <;> infer_instance

instance (entry : A → E) (e : E) (p : Point A V) :
    Decidable (p.Wakes entry e) := by
  cases p <;> unfold Point.Wakes <;> infer_instance

instance [Fintype ι] (entry : A → E) (s : State ι A E V) (p : Point A V) :
    Decidable (s.Undisturbed entry p) := by
  cases p <;> unfold State.Undisturbed <;> infer_instance

instance [Fintype ι] (entry : A → E) (s : State ι A E V) (l : Label ι A V) :
    Decidable (Undisturbed entry s l) := by
  cases l <;> unfold Undisturbed <;> infer_instance

end Decidable

/-- No waiter sleeps although its value has been changed away since it last
read it and a notification of its address, called after that, has completed. -/
def NoneLost (s : State ι A E V) : Prop :=
  ∀ w a val, s.pc w = .asleep a val → s.history.notified w ≠ true

/-! ## The invariant -/

namespace Point

/-- A notifier that has increased the version. -/
def Bumped : Point A V → Prop
  | exchangeWaiters _ => True
  | platformWake _ => True
  | _ => False

end Point

/-- The invariant, on the components of a state. -/
structure InvAt (entry : A → E) (waiters : E → ℤ) (version : E → BitVec 32)
    (pc : ι → Point A V) (history : History ι) : Prop where
  committed : ∀ w e, (pc w).Committed entry e (version e) → waiters e ≠ 0
  asleep : ∀ w a val, pc w = .asleep a val →
    waiters (entry a) ≠ 0 ∨ ∃ n, (pc n).Wakes entry (entry a)
  covered : ∀ n w, history.covers n w = true →
    ∃ a val, (pc n).notifies = some a ∧ (pc w).awaits = some (a, val)
  stale : ∀ w a val loaded, pc w = .platformWait a val loaded →
    (history.notified w = true ∨
      ∃ n, history.covers n w = true ∧ (pc n).Bumped) →
    version (entry a) ≠ loaded
  noneLost : ∀ w a val, pc w = .asleep a val → history.notified w ≠ true

def Inv (entry : A → E) (s : State ι A E V) : Prop :=
  InvAt entry s.waiters s.version s.pc s.history

variable {entry : A → E} {s s' : State ι A E V}

section Points

omit [DecidableEq A] [DecidableEq E] [DecidableEq V]

variable {p : Point A V} {e : E}

theorem not_bumped (h : p.notifies = none) : ¬ p.Bumped := by
  cases p <;> first | exact id | cases h

theorem not_wakes (h : p.notifies = none) : ¬ p.Wakes entry e := by
  cases p <;> first | exact id | cases h

theorem entry_of_wakes {a : A} (h : p.notifies = some a)
    (hwakes : p.Wakes entry e) : e = entry a := by
  cases p <;> first | exact hwakes.elim | (cases h; exact hwakes.symm)

theorem awaits_of_notifies {a : A} (h : p.notifies = some a) :
    p.awaits = none := by
  cases p <;> first | rfl | cases h

end Points

section Steps

omit [DecidableEq A] [DecidableEq E] [DecidableEq V]

variable {waiters : E → ℤ} {version : E → BitVec 32} {pc : ι → Point A V}
  {history : History ι} {t : ι} {p : Point A V}

omit [DecidableEq ι] in
theorem inv_start (h : Start s) : Inv entry s := by
  obtain ⟨hwaiters, hversion, hidle, hhistory⟩ := h
  constructor
  · intro w e hw
    rw [hidle] at hw
    exact hw.elim
  · intro w a val hw
    rw [hidle] at hw
    cases hw
  · intro n w hcovers
    rw [hhistory] at hcovers
    cases hcovers
  · intro w a val version hw
    rw [hidle] at hw
    cases hw
  · intro w a val hw
    rw [hidle] at hw
    cases hw

/-- A waiter reads its value and does not fall asleep at once. -/
theorem inv_observe (h : InvAt entry waiters version pc history)
    (hfrom : (pc t).notifies = none) (hto : p.notifies = none)
    (hcommitted : ∀ e, p.Committed entry e (version e) → waiters e ≠ 0)
    (hawake : ∀ a val, p ≠ .asleep a val) :
    InvAt entry waiters version (Function.update pc t p) (history.read t) := by
  constructor
  · intro w e
    exact imp_update (Q := fun _ => waiters e ≠ 0) (hcommitted e)
      (fun w => h.committed w e) w
  · intro w a val hw
    obtain ⟨hwt, hw⟩ := of_update hw (hawake a val)
    exact (h.asleep w a val hw).imp id
      (exists_update fun hn => absurd hn (not_wakes hfrom))
  · exact History.Covered.read h.covered hfrom
  · rintro w a val loaded hw (hnotified | ⟨n, hcovers, hbumped⟩)
    · obtain ⟨hwt, hnotified⟩ := History.notified_read.mp hnotified
      rw [Function.update_of_ne hwt] at hw
      exact h.stale w a val loaded hw (Or.inl hnotified)
    · obtain ⟨hwt, hcovers⟩ := History.covers_read.mp hcovers
      rw [Function.update_of_ne hwt] at hw
      obtain ⟨-, hbumped⟩ :=
        prop_of_update (P := Point.Bumped) hbumped (not_bumped hto)
      exact h.stale w a val loaded hw (Or.inr ⟨n, hcovers, hbumped⟩)
  · intro w a val hw hnotified
    obtain ⟨hwt, hnotified⟩ := History.notified_read.mp hnotified
    rw [Function.update_of_ne hwt] at hw
    exact h.noneLost w a val hw hnotified

/-- A waiter goes on without reading its value. -/
theorem inv_advance (h : InvAt entry waiters version pc history)
    (hawaits : p.awaits = (pc t).awaits) (hfrom : (pc t).notifies = none)
    (hto : p.notifies = none)
    (hcommitted : ∀ e, p.Committed entry e (version e) → waiters e ≠ 0)
    (hwait : ∀ a val loaded, p ≠ .platformWait a val loaded)
    (hasleep : ∀ a val, p = .asleep a val →
      waiters (entry a) ≠ 0 ∧ history.notified t ≠ true) :
    InvAt entry waiters version (Function.update pc t p) history := by
  constructor
  · intro w e
    exact imp_update (Q := fun _ => waiters e ≠ 0) (hcommitted e)
      (fun w => h.committed w e) w
  · intro w a val hw
    by_cases hwt : w = t
    · rw [hwt, Function.update_self] at hw
      exact Or.inl (hasleep a val hw).1
    · rw [Function.update_of_ne hwt] at hw
      exact (h.asleep w a val hw).imp id
        (exists_update fun hn => absurd hn (not_wakes hfrom))
  · exact History.Covered.update h.covered (hto.trans hfrom.symm) hawaits
  · intro w a val loaded hw howed
    obtain ⟨hwt, hw⟩ := of_update hw (hwait a val loaded)
    refine h.stale w a val loaded hw (howed.imp id ?_)
    rintro ⟨n, hcovers, hbumped⟩
    obtain ⟨-, hbumped⟩ :=
      prop_of_update (P := Point.Bumped) hbumped (not_bumped hto)
    exact ⟨n, hcovers, hbumped⟩
  · intro w a val hw
    by_cases hwt : w = t
    · rw [hwt, Function.update_self] at hw
      rw [hwt]
      exact (hasleep a val hw).2
    · rw [Function.update_of_ne hwt] at hw
      exact h.noneLost w a val hw

omit [DecidableEq ι] in
/-- A waiter sets the flag of an entry. -/
theorem inv_storeWaiters [DecidableEq E]
    (h : InvAt entry waiters version pc history) (e : E) :
    InvAt entry (Function.update waiters e 1) version pc history := by
  have hraise : ∀ e', waiters e' ≠ 0 → Function.update waiters e 1 e' ≠ 0 :=
    fun e' => prop_update (P := (· ≠ 0)) Int.one_ne_zero
  constructor
  · intro w e' hw
    exact hraise e' (h.committed w e' hw)
  · intro w a val hw
    exact (h.asleep w a val hw).imp (hraise (entry a)) id
  · exact h.covered
  · exact h.stale
  · exact h.noneLost

/-- A notification is called. -/
theorem inv_notifyAll {a : A} {concerns : ι → Bool}
    (h : InvAt entry waiters version pc history) (hidle : pc t = .idle)
    (hconcerns : ∀ w, concerns w = true → ∃ val, (pc w).awaits = some (a, val)) :
    InvAt entry waiters version (Function.update pc t (.addVersion a))
      (history.call t concerns) := by
  constructor
  · intro w e
    exact imp_update (Q := fun _ => waiters e ≠ 0) False.elim
      (fun w => h.committed w e) w
  · intro w b val hw
    obtain ⟨hwt, hw⟩ := of_update hw nofun
    exact (h.asleep w b val hw).imp id (exists_update (by rw [hidle]; exact False.elim))
  · exact History.Covered.call h.covered (congrArg Point.awaits hidle) rfl hconcerns
  · intro w b val loaded hto howed
    obtain ⟨hwt, hw⟩ := of_update hto nofun
    refine h.stale w b val loaded hw (howed.imp id ?_)
    rintro ⟨n, hcovers, hbumped⟩
    obtain ⟨hnt, hbumped⟩ := prop_of_update (P := Point.Bumped) hbumped id
    rw [History.covers_call, if_neg hnt] at hcovers
    exact ⟨n, hcovers, hbumped⟩
  · intro w b val hw
    obtain ⟨hwt, hw⟩ := of_update hw nofun
    exact h.noneLost w b val hw

/-- A notifier increases the version. -/
theorem inv_addVersion [DecidableEq E] {a : A}
    (h : InvAt entry waiters version pc history) (hpc : pc t = .addVersion a)
    (hfresh : ∀ w, ¬ (pc w).HasLoaded entry (entry a) (version (entry a) + 1)) :
    InvAt entry waiters
      (Function.update version (entry a) (version (entry a) + 1))
      (Function.update pc t (.exchangeWaiters a)) history := by
  constructor
  · intro w e hw
    obtain ⟨hwt, hw⟩ := prop_of_update (P := Point.Committed entry e _) hw id
    by_cases he : e = entry a
    · subst he
      rw [Function.update_self] at hw
      have hnew := hfresh w
      refine h.committed w (entry a) ?_
      generalize pc w = p at hw hnew ⊢
      cases p <;> first | exact hw | exact absurd hw hnew
    · rw [Function.update_of_ne he] at hw
      exact h.committed w e hw
  · intro w b val hw
    obtain ⟨hwt, hw⟩ := of_update hw nofun
    exact (h.asleep w b val hw).imp id (exists_update (by rw [hpc]; exact False.elim))
  · exact History.Covered.update h.covered (by rw [hpc]; rfl) (by rw [hpc]; rfl)
  · intro w b val loaded hto howed
    obtain ⟨hwt, hw⟩ := of_update hto nofun
    by_cases he : entry b = entry a
    · rw [he, Function.update_self]
      intro heq
      have hnew := hfresh w
      rw [hw] at hnew
      exact hnew ⟨he, heq.symm⟩
    · rw [Function.update_of_ne he]
      refine h.stale w b val loaded hw (howed.imp id ?_)
      rintro ⟨n, hcovers, hbumped⟩
      have hnt : n ≠ t := by
        rintro rfl
        obtain ⟨c, val', hnotifies, hawaits⟩ := h.covered n w hcovers
        rw [hpc] at hnotifies
        rw [hw] at hawaits
        cases hnotifies
        cases hawaits
        exact he rfl
      rw [Function.update_of_ne hnt] at hbumped
      exact ⟨n, hcovers, hbumped⟩
  · intro w b val hw
    obtain ⟨hwt, hw⟩ := of_update hw nofun
    exact h.noneLost w b val hw

/-- A notifier takes the flag while no waiter is on its way to sleep. -/
theorem inv_exchange_set [DecidableEq E] {a : A}
    (h : InvAt entry waiters version pc history) (hpc : pc t = .exchangeWaiters a)
    (hnone : ∀ w, ¬ (pc w).Committed entry (entry a) (version (entry a))) :
    InvAt entry (Function.update waiters (entry a) 0) version
      (Function.update pc t (.platformWake a)) history := by
  constructor
  · intro w e hw
    obtain ⟨hwt, hw⟩ := prop_of_update (P := Point.Committed entry e _) hw id
    have he : e ≠ entry a := by
      rintro rfl
      exact hnone w hw
    rw [Function.update_of_ne he]
    exact h.committed w e hw
  · intro w b val hw
    obtain ⟨hwt, hw⟩ := of_update hw nofun
    by_cases he : entry b = entry a
    · right
      refine ⟨t, ?_⟩
      rw [Function.update_self]
      exact he.symm
    · rw [Function.update_of_ne he]
      exact (h.asleep w b val hw).imp id (exists_update (by rw [hpc]; exact False.elim))
  · exact History.Covered.update h.covered (by rw [hpc]; rfl) (by rw [hpc]; rfl)
  · intro w b val loaded hto howed
    obtain ⟨hwt, hw⟩ := of_update hto nofun
    refine h.stale w b val loaded hw (howed.imp id ?_)
    rintro ⟨n, hcovers, hbumped⟩
    refine ⟨n, hcovers, ?_⟩
    by_cases hnt : n = t
    · rw [hnt, hpc]
      trivial
    · rwa [Function.update_of_ne hnt] at hbumped
  · intro w b val hw
    obtain ⟨hwt, hw⟩ := of_update hw nofun
    exact h.noneLost w b val hw

/-- A notification completes, and its address has no sleeper.  The other
threads are where they were, or have been woken. -/
theorem inv_complete {a : A} {pc' : ι → Point A V}
    (h : InvAt entry waiters version pc history)
    (hbumped : (pc t).Bumped) (hnotifies : (pc t).notifies = some a)
    (hidle : pc' t = .idle)
    (hmoved : ∀ w, w ≠ t → pc' w = pc w ∨
      ∃ b val, pc w = .asleep b val ∧ pc' w = .check b val)
    (hnone : ∀ w b val, pc' w = .asleep b val → entry b ≠ entry a) :
    InvAt entry waiters version pc' (history.complete t) := by
  -- a thread that is not outside and not about to check is where it was
  have hback : ∀ {w : ι}, pc' w ≠ .idle → (∀ b val, pc' w ≠ .check b val) →
      w ≠ t ∧ pc w = pc' w := by
    intro w hne hcheck
    have hwt : w ≠ t := by
      rintro rfl
      exact hne hidle
    rcases hmoved w hwt with heq | ⟨b, val, -, hto⟩
    · exact ⟨hwt, heq.symm⟩
    · exact absurd hto (hcheck b val)
  constructor
  · intro w e hw
    obtain ⟨hwt, heq⟩ := hback (by rintro heq; rw [heq] at hw; exact hw)
      (by rintro b val heq; rw [heq] at hw; exact hw)
    rw [← heq] at hw
    exact h.committed w e hw
  · intro w b val hw
    have hentry := hnone w b val hw
    obtain ⟨hwt, heq⟩ := hback (by rw [hw]; nofun) (by rw [hw]; nofun)
    refine (h.asleep w b val (heq.trans hw)).imp id ?_
    rintro ⟨n, hn⟩
    have hnt : n ≠ t := by
      rintro rfl
      exact hentry (entry_of_wakes hnotifies hn)
    rcases hmoved n hnt with heq | ⟨c, val', hasleep, -⟩
    · exact ⟨n, by rwa [heq]⟩
    · rw [hasleep] at hn
      exact hn.elim
  · refine History.Covered.complete h.covered (awaits_of_notifies hnotifies) ?_ ?_
    · intro n b hnt hn
      rcases hmoved n hnt with heq | ⟨c, val, hasleep, -⟩
      · rwa [heq]
      · rw [hasleep] at hn
        cases hn
    · intro w hwt
      rcases hmoved w hwt with heq | ⟨c, val, hasleep, hcheck⟩
      · rw [heq]
      · rw [hasleep, hcheck]
        rfl
  · intro w b val loaded hw howed
    obtain ⟨hwt, heq⟩ := hback (by rw [hw]; nofun) (by rw [hw]; nofun)
    refine h.stale w b val loaded (heq.trans hw) ?_
    rcases howed with hnotified | ⟨n, hcovers, hn⟩
    · exact (History.notified_complete.mp hnotified).imp id
        fun hcovers => ⟨t, hcovers, hbumped⟩
    · obtain ⟨hnt, hcovers⟩ := History.covers_complete.mp hcovers
      obtain ⟨-, heq⟩ := hback (by rintro heq; rw [heq] at hn; exact hn)
        (by rintro b val heq; rw [heq] at hn; exact hn)
      exact Or.inr ⟨n, hcovers, by rwa [heq]⟩
  · intro w b val hw hnotified
    obtain ⟨hwt, heq⟩ := hback (by rw [hw]; nofun) (by rw [hw]; nofun)
    have hasleep := heq.trans hw
    rcases History.notified_complete.mp hnotified with hnotified | hcovers
    · exact h.noneLost w b val hasleep hnotified
    · refine absurd ?_ (hnone w b val hw)
      exact congrArg entry (History.Covered.address_eq h.covered hcovers hnotifies
        (by rw [hasleep]; rfl))

end Steps

/-! ## Runs -/

section Runs

omit [DecidableEq A] [DecidableEq V]

/-- An exchange that finds the flag clear. -/
theorem inv_exchange_clear {t : ι} {a : A} (h : Inv entry s)
    (hpc : s.pc t = .exchangeWaiters a) (hclear : s.waiters (entry a) = 0)
    (hnone : ∀ n, ¬ (s.pc n).Wakes entry (entry a)) :
    InvAt entry (Function.update s.waiters (entry a) 0) s.version
      (Function.update s.pc t .idle) (s.history.complete t) := by
  have hwaiters : Function.update s.waiters (entry a) 0 = s.waiters := by
    rw [← hclear, Function.update_eq_self]
  rw [hwaiters]
  refine inv_complete h (by rw [hpc]; trivial) (by rw [hpc]; rfl)
    (Function.update_self t _ s.pc) ?_ ?_
  · intro w hwt
    exact Or.inl (Function.update_of_ne hwt _ s.pc)
  · intro w b val hw hentry
    obtain ⟨hwt, hasleep⟩ := of_update hw nofun
    rcases h.asleep w b val hasleep with hflag | ⟨n, hn⟩
    · rw [hentry] at hflag
      exact hflag hclear
    · rw [hentry] at hn
      exact hnone n hn

omit [DecidableEq ι] in
theorem wake_cases (entry : A → E) (e : E) (p : Point A V) :
    (p.wake entry e = p ∧ ∀ a val, p = .asleep a val → entry a ≠ e) ∨
      ∃ a val, p = .asleep a val ∧ p.wake entry e = .check a val := by
  cases p with
  | asleep a val =>
      rw [Point.wake]
      split
      · exact Or.inr ⟨a, val, rfl, rfl⟩
      · rename_i hentry
        refine Or.inl ⟨rfl, ?_⟩
        rintro b val' ⟨⟩
        exact hentry
  | _ => exact Or.inl ⟨rfl, nofun⟩

theorem inv_wake {t : ι} {a : A} (h : Inv entry s)
    (hpc : s.pc t = .platformWake a) :
    InvAt entry s.waiters s.version
      (Function.update (fun w => (s.pc w).wake entry (entry a)) t .idle)
      (s.history.complete t) := by
  refine inv_complete h (by rw [hpc]; trivial) (by rw [hpc]; rfl)
    (Function.update_self t _ _) ?_ ?_
  · intro w hwt
    rw [Function.update_of_ne hwt]
    exact (wake_cases entry (entry a) (s.pc w)).imp And.left id
  · intro w b val hw
    obtain ⟨hwt, hasleep⟩ := of_update hw nofun
    rcases wake_cases entry (entry a) (s.pc w) with ⟨heq, hentry⟩ |
      ⟨c, val', -, hcheck⟩
    · exact hentry b val (heq.symm.trans hasleep)
    · rw [hcheck] at hasleep
      cases hasleep

end Runs

omit [DecidableEq A] in
theorem inv_next {t : ι} (h : Inv entry s)
    (hcond : Undisturbed entry s (.step t)) (hstep : s.next entry t = some s') :
    Inv entry s' := by
  cases hpc : s.pc t with
  | idle => simp only [State.next, hpc, reduceCtorEq] at hstep
  | asleep a val => simp only [State.next, hpc, reduceCtorEq] at hstep
  | poll a val i =>
      simp only [State.next, hpc, Option.some.injEq] at hstep
      subst hstep
      refine inv_observe h (by rw [hpc]; rfl) ?_ ?_ ?_
      · split <;> try split
        all_goals rfl
      · split <;> try split
        all_goals nofun
      · split <;> try split
        all_goals nofun
  | check a val =>
      simp only [State.next, hpc, Option.some.injEq] at hstep
      subst hstep
      refine inv_observe h (by rw [hpc]; rfl) ?_ ?_ ?_
      · split <;> rfl
      · split <;> nofun
      · split <;> nofun
  | storeWaiters a val =>
      simp only [State.next, hpc, Option.some.injEq] at hstep
      subst hstep
      refine inv_advance (inv_storeWaiters h (entry a)) (by rw [hpc]; rfl)
        (by rw [hpc]; rfl) rfl ?_ nofun nofun
      intro e hto
      obtain rfl : entry a = e := hto
      change Function.update s.waiters (entry a) 1 (entry a) ≠ 0
      rw [Function.update_self]
      exact Int.one_ne_zero
  | loadVersion a val =>
      simp only [State.next, hpc, Option.some.injEq] at hstep
      subst hstep
      refine inv_advance h (by rw [hpc]; rfl) (by rw [hpc]; rfl) rfl ?_ nofun nofun
      rintro e ⟨rfl, -⟩
      exact h.committed t (entry a) (by rw [hpc]; rfl)
  | loadValue a val loaded =>
      simp only [State.next, hpc, Option.some.injEq] at hstep
      subst hstep
      refine inv_observe h (by rw [hpc]; rfl) ?_ ?_ ?_
      · split <;> rfl
      · intro e hto
        refine h.committed t e ?_
        rw [hpc]
        split at hto
        · exact hto
        · exact hto.elim
      · split <;> nofun
  | platformWait a val loaded =>
      simp only [State.next, hpc, Option.some.injEq] at hstep
      subst hstep
      refine inv_advance h ?_ (by rw [hpc]; rfl) ?_ ?_ ?_ ?_
      · rw [hpc]
        split <;> rfl
      · split <;> rfl
      · split <;> nofun
      · split <;> nofun
      · intro b val' hto
        split at hto
        · rename_i hsame
          cases hto
          refine ⟨?_, ?_⟩
          · refine h.committed t (entry a) ?_
            rw [hpc]
            exact ⟨rfl, hsame.symm⟩
          · intro hnotified
            exact h.stale t a val loaded hpc (Or.inl hnotified) hsame
        · cases hto
  | addVersion a =>
      simp only [State.next, hpc, Option.some.injEq] at hstep
      simp only [Undisturbed, State.Undisturbed, hpc] at hcond
      subst hstep
      exact inv_addVersion h hpc hcond
  | exchangeWaiters a =>
      simp only [State.next, hpc] at hstep
      simp only [Undisturbed, State.Undisturbed, hpc] at hcond
      split at hstep
      · rename_i hflag
        rw [if_pos hflag] at hcond
        obtain rfl := Option.some.inj hstep
        exact inv_exchange_set h hpc hcond
      · rename_i hclear
        rw [if_neg hclear] at hcond
        obtain rfl := Option.some.inj hstep
        exact inv_exchange_clear h hpc (not_not.mp hclear) hcond
  | platformWake a =>
      simp only [State.next, hpc, Option.some.injEq] at hstep
      subst hstep
      exact inv_wake h hpc

theorem inv_step {l : Label ι A V} (h : Inv entry s)
    (hcond : Undisturbed entry s l) (hstep : step entry s l = some s') :
    Inv entry s' := by
  cases l with
  | wait t a val =>
      rw [step] at hstep
      split at hstep
      · rename_i hidle
        obtain rfl := Option.some.inj hstep
        exact inv_observe h (by rw [hidle]; rfl) rfl nofun nofun
      · cases hstep
  | store t a v =>
      rw [step] at hstep
      split at hstep
      · obtain rfl := Option.some.inj hstep
        exact ⟨h.committed, h.asleep, h.covered, h.stale, h.noneLost⟩
      · cases hstep
  | notifyAll t a =>
      rw [step] at hstep
      split at hstep
      · rename_i hidle
        obtain rfl := Option.some.inj hstep
        refine inv_notifyAll h hidle ?_
        intro w hw
        obtain ⟨⟨b, val⟩, hawaits, hb⟩ := (Option.any_eq_true _ _).mp hw
        obtain rfl : b = a := by simpa using hb
        exact ⟨val, hawaits⟩
      · cases hstep
  | step t => exact inv_next h hcond hstep

/-- No wake-up is lost in a run that other notifiers do not disturb. -/
theorem futex_none_lost (entry : A → E)
    (h : (system ι A E V entry).Reachable (Undisturbed entry) s) : NoneLost s := by
  have hinv : Inv entry s := by
    refine h.invariant ?_ ?_
    · intro s hs
      exact inv_start hs
    · intro s l s' hinv hcond hstep
      exact inv_step hinv hcond hstep
  exact hinv.noneLost

/-- The table as it is constructed, and values that are all `false`. -/
def falseValues (ι : Type) : State ι Bool Unit Bool :=
  ⟨fun _ => false, fun _ => 0, fun _ => 0, fun _ => .idle, .empty⟩

omit [DecidableEq ι] in
theorem start_falseValues : Start (falseValues ι) :=
  ⟨fun _ => rfl, fun _ => rfl, fun _ => rfl, rfl⟩

/-- A waiter falls asleep, and is covered by a notification that has taken the
flag and is about to wake it. -/
theorem futex_none_lost_two :
    ∃ s, (system (Fin 2) Bool Unit Bool fun _ => ()).exec
        (Undisturbed fun _ => ()) (falseValues (Fin 2))
        (.wait 0 false false :: List.replicate 21 (.step 0) ++
          [.store 1 false true, .notifyAll 1 false, .step 1, .step 1]) = some s ∧
      s.pc 0 = .asleep false false ∧ s.history.covers 1 0 = true ∧
      NoneLost s := by
  obtain ⟨s, hs, hpc, hcovers⟩ : ∃ s,
      (system (Fin 2) Bool Unit Bool fun _ => ()).exec
        (Undisturbed fun _ => ()) (falseValues (Fin 2))
        (.wait 0 false false :: List.replicate 21 (.step 0) ++
          [.store 1 false true, .notifyAll 1 false, .step 1, .step 1]) = some s ∧
      s.pc 0 = .asleep false false ∧ s.history.covers 1 0 = true :=
    ⟨_, rfl, by decide, by decide⟩
  refine ⟨s, hs, hpc, hcovers, ?_⟩
  exact futex_none_lost (fun _ => ())
    (System.reachable_of_exec start_falseValues hs)

/-- A notifier of another address increases the version; a waiter sets the
flag, loads the version and reads its value; the notifier takes the flag and
wakes nobody; the waiter falls asleep.  The notification of a store finds the
flag clear, and the waiter sleeps on with nobody left to wake it. -/
theorem futex_wake_up_lost :
    ∃ s, (system (Fin 3) Bool Unit Bool fun _ => ()).Reachable
        (fun _ _ => True) s ∧
      ¬ NoneLost s ∧ s.pc 0 = .asleep false false ∧ s.value false = true ∧
      ∀ n ≠ 0, s.pc n = .idle := by
  obtain ⟨s, hs, hpc, hnotified, hvalue, hidle⟩ : ∃ s,
      (system (Fin 3) Bool Unit Bool fun _ => ()).exec (fun _ _ => True)
        (falseValues (Fin 3))
        ([.notifyAll 1 true, .step 1, .wait 0 false false] ++
          List.replicate 20 (.step 0) ++
          [.step 1, .step 1, .step 0, .store 2 false true, .notifyAll 2 false,
            .step 2, .step 2]) = some s ∧
      s.pc 0 = .asleep false false ∧ s.history.notified 0 = true ∧
      s.value false = true ∧ ∀ n ≠ 0, s.pc n = .idle :=
    ⟨_, rfl, by decide, by decide, by decide, by decide⟩
  refine ⟨s, System.reachable_of_exec start_falseValues hs, ?_, hpc, hvalue, hidle⟩
  intro hnone
  exact hnone 0 false false hpc hnotified

end Libhipcxx.Wait.Futex
