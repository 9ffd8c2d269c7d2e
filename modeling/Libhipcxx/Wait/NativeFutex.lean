import Libhipcxx.Support.Transition
import Libhipcxx.Wait.History
import Libhipcxx.Wait.Polling
import Mathlib.Data.Fintype.Basic

/-!
# Waiting on a futex directly

`__cxx_atomic_wait`, `__cxx_atomic_notify_all` and `__cxx_atomic_notify_one` for
the type that the platform waits on.  The futex is on the object itself, and the
entry of the contention table only counts the waiters, so that a notification
without waiters need not enter the kernel.  Addresses may share an entry.

Threads take one atomic step at a time.  The kernel compares the object with the
old value and goes to sleep in one step; it may also wake a sleeper without a
reason.
-/

namespace Libhipcxx.Wait.NativeFutex

open Transition Threads

/-- The next atomic operation of a thread; `all` says which notification it
carries out. -/
inductive Point (A V : Type) where
  | idle
  | poll (a : A) (val : V) (i : ℕ)
  | check (a : A) (val : V)
  | addWaiters (a : A) (val : V)
  | platformWait (a : A) (val : V)
  | asleep (a : A) (val : V)
  | subWaiters (a : A) (val : V)
  | loadWaiters (all : Bool) (a : A)
  | platformWake (all : Bool) (a : A)
  deriving DecidableEq

section Definitions

variable {ι A E V : Type} [DecidableEq ι] [DecidableEq A] [DecidableEq E] [DecidableEq V]

namespace Point

/-- What a waiter waits for. -/
def awaits : Point A V → Option (A × V)
  | poll a val _ => some (a, val)
  | check a val => some (a, val)
  | addWaiters a val => some (a, val)
  | platformWait a val => some (a, val)
  | asleep a val => some (a, val)
  | subWaiters a val => some (a, val)
  | _ => none

/-- The address of which a thread notifies all waiters. -/
def notifies : Point A V → Option A
  | loadWaiters true a => some a
  | platformWake true a => some a
  | _ => none

/-- The thread is counted in the entry. -/
def counted (entry : A → E) (e : E) : Point A V → ℕ
  | platformWait a _ => if entry a = e then 1 else 0
  | asleep a _ => if entry a = e then 1 else 0
  | subWaiters a _ => if entry a = e then 1 else 0
  | _ => 0

/-- The thread sleeps on the address. -/
def sleepsOn (a : A) : Point A V → Bool
  | asleep b _ => b = a
  | _ => false

/-- A sleeper has been woken. -/
def awake : Point A V → Point A V
  | asleep a val => subWaiters a val
  | pc => pc

/-- `__libcpp_platform_wake` of all sleepers. -/
def wake (a : A) (pc : Point A V) : Point A V := if pc.sleepsOn a then pc.awake else pc

end Point

structure State (ι A E V : Type) where
  value : A → V
  waiters : E → ℤ
  pc : ι → Point A V
  history : History ι

/-- `wakeOne` is the wake of a single sleeper; `interrupt` wakes one for no
reason. -/
inductive Label (ι A V : Type) where
  | wait (t : ι) (a : A) (val : V)
  | store (t : ι) (a : A) (v : V)
  | notify (t : ι) (all : Bool) (a : A)
  | step (t : ι)
  | wakeOne (t w : ι)
  | interrupt (w : ι)

namespace State

def setPc (s : State ι A E V) (t : ι) (pc : Point A V) : State ι A E V :=
  { s with pc := Function.update s.pc t pc }

/-- The thread reads its value, and goes to a point. -/
def observe (s : State ι A E V) (t : ι) (pc : Point A V) : State ι A E V :=
  { s with pc := Function.update s.pc t pc, history := s.history.read t }

def addWaiters (s : State ι A E V) (e : E) (n : ℤ) : State ι A E V :=
  { s with waiters := Function.update s.waiters e (s.waiters e + n) }

/-- The notification of thread `t` is over. -/
def complete (s : State ι A E V) (t : ι) : State ι A E V :=
  { s with pc := Function.update s.pc t .idle, history := s.history.complete t }

def wakeAll (s : State ι A E V) (a : A) : State ι A E V :=
  { s with pc := fun w => (s.pc w).wake a }

/-- The atomic operation of a thread.  To wake one sleeper is another label,
where there is one. -/
def next [Fintype ι] (entry : A → E) (s : State ι A E V) (t : ι) : Option (State ι A E V) :=
  match s.pc t with
  | .poll a val i =>
      some (s.observe t
        (if s.value a = val then
          if i + 1 < pollingCount then .poll a val (i + 1) else .check a val
        else .idle))
  | .check a val => some (s.observe t (if s.value a = val then .addWaiters a val else .idle))
  | .addWaiters a val => some ((s.addWaiters (entry a) 1).setPc t (.platformWait a val))
  | .platformWait a val =>
      some (s.observe t (if s.value a = val then .asleep a val else .subWaiters a val))
  | .subWaiters a val => some ((s.addWaiters (entry a) (-1)).setPc t (.check a val))
  | .loadWaiters all a =>
      some (if s.waiters (entry a) ≠ 0 then s.setPc t (.platformWake all a) else s.complete t)
  | .platformWake true a => some ((s.wakeAll a).complete t)
  | .platformWake false a =>
      if ∃ w, (s.pc w).sleepsOn a = true then none else some (s.complete t)
  | .asleep _ _ => none
  | .idle => none

end State

def step [Fintype ι] (entry : A → E) (s : State ι A E V) : Label ι A V → Option (State ι A E V)
  | .wait t a val => if s.pc t = .idle then some (s.observe t (.poll a val 0)) else none
  | .store t a v =>
      if s.pc t = .idle then
        some { s with
          value := Function.update s.value a v
          history := s.history.store fun w =>
            (s.pc w).awaits.any fun (b, val) => b = a ∧ val ≠ v }
      else none
  | .notify t all a =>
      if s.pc t = .idle then
        some { s with
          pc := Function.update s.pc t (.loadWaiters all a)
          history := s.history.call t fun w =>
            all && (s.pc w).awaits.any fun (b, _) => b = a }
      else none
  | .step t => s.next entry t
  | .wakeOne t w =>
      match s.pc t with
      | .platformWake false a =>
          if (s.pc w).sleepsOn a then some ((s.setPc w (s.pc w).awake).complete t) else none
      | _ => none
  | .interrupt w => some (s.setPc w (s.pc w).awake)

/-- The table as it is constructed, and any values. -/
def Start (s : State ι A E V) : Prop :=
  (∀ e, s.waiters e = 0) ∧ (∀ t, s.pc t = .idle) ∧ s.history = .empty

def system (ι A E V : Type) [Fintype ι] [DecidableEq ι] [DecidableEq A] [DecidableEq E]
    [DecidableEq V] (entry : A → E) : System (State ι A E V) (Label ι A V) where
  start := Start
  step := step entry

/-- No waiter sleeps although its value has been changed away since it last
read it and a notification of all waiters of its address, called after that, has
completed. -/
def NoneLost (s : State ι A E V) : Prop :=
  ∀ w a val, s.pc w = .asleep a val → s.history.notified w ≠ true

end Definitions

/-! ## The invariant -/

section Points

variable {A E V : Type} {p : Point A V} {a : A} {val : V}

/-- A thread that is about to notify, or to wake. -/
def Point.Notifier (p : Point A V) : Prop :=
  ∃ all a, p = .loadWaiters all a ∨ p = .platformWake all a

theorem Point.Notifier.awaits (h : p.Notifier) : p.awaits = none := by
  obtain ⟨all, a, rfl | rfl⟩ := h <;> rfl

theorem Point.Notifier.counted [DecidableEq E] (h : p.Notifier) (entry : A → E) (e : E) :
    p.counted entry e = 0 := by
  obtain ⟨all, a, rfl | rfl⟩ := h <;> rfl

theorem awake_counted [DecidableEq E] (p : Point A V) (entry : A → E) (e : E) :
    p.awake.counted entry e = p.counted entry e := by
  cases p <;> rfl

theorem awake_awaits (p : Point A V) : p.awake.awaits = p.awaits := by
  cases p <;> rfl

theorem awake_notifies (p : Point A V) : p.awake.notifies = p.notifies := by
  cases p with
  | asleep => rfl
  | _ => exact congrArg Point.notifies rfl

theorem awake_ne_asleep (p : Point A V) : p.awake ≠ .asleep a val := by
  cases p <;> nofun

theorem wake_cases [DecidableEq A] (a : A) (p : Point A V) :
    p.wake a = p.awake ∨ p.wake a = p ∧ ∀ val, p ≠ .asleep a val := by
  rw [Point.wake]
  split
  · exact Or.inl rfl
  · rename_i hsleeps
    refine Or.inr ⟨rfl, ?_⟩
    rintro val rfl
    simp [Point.sleepsOn] at hsleeps

end Points

section Invariant

variable {ι A E V : Type} [Fintype ι] [DecidableEq E]

/-- The count of an entry is the number of its waiters between the addition and
the subtraction. -/
structure InvAt (entry : A → E) (waiters : E → ℤ) (pc : ι → Point A V)
    (history : History ι) : Prop where
  waiters_eq : ∀ e, waiters e = total (Point.counted entry e) pc
  covered : history.Covered Point.notifies Point.awaits pc
  noneLost : ∀ w a val, pc w = .asleep a val → history.notified w ≠ true

variable {entry : A → E} {waiters : E → ℤ} {pc pc' : ι → Point A V} {history : History ι}
  {p : Point A V} {t w : ι} {a : A} {val : V}

/-- An entry that counts nobody has no sleeper. -/
theorem InvAt.not_asleep (h : InvAt entry waiters pc history) (hzero : waiters (entry a) = 0)
    (w : ι) (val : V) : pc w ≠ .asleep a val := by
  intro hw
  have hle : (pc w).counted entry (entry a) ≤ total (Point.counted entry (entry a)) pc :=
    le_total _ pc w
  have hone : (pc w).counted entry (entry a) = 1 := by
    rw [hw, Point.counted, if_pos rfl]
  have heq := h.waiters_eq (entry a)
  omega

variable [DecidableEq ι]

/-- A thread moves, and is counted as before. -/
theorem InvAt.waiters_update (h : InvAt entry waiters pc history)
    (hcounted : ∀ e, p.counted entry e = (pc t).counted entry e) (e : E) :
    waiters e = total (Point.counted entry e) (Function.update pc t p) := by
  rw [h.waiters_eq e, total_update_of_eq (hcounted e)]

/-- A waiter reads its value. -/
theorem InvAt.observe (h : InvAt entry waiters pc history)
    (hcounted : ∀ e, p.counted entry e = (pc t).counted entry e)
    (hfrom : (pc t).notifies = none) :
    InvAt entry waiters (Function.update pc t p) (history.read t) where
  waiters_eq := h.waiters_update hcounted
  covered := History.Covered.read h.covered hfrom
  noneLost w a val hw hnotified := by
    obtain ⟨hwt, hnotified⟩ := History.notified_read.mp hnotified
    rw [Function.update_of_ne hwt] at hw
    exact h.noneLost w a val hw hnotified

/-- A thread goes on without reading a value. -/
theorem InvAt.advance (h : InvAt entry waiters pc history) {waiters' : E → ℤ}
    (hwaiters : ∀ e, waiters' e = total (Point.counted entry e) (Function.update pc t p))
    (hnotifies : p.notifies = (pc t).notifies) (hawaits : p.awaits = (pc t).awaits)
    (hawake : ∀ a val, p ≠ .asleep a val) :
    InvAt entry waiters' (Function.update pc t p) history where
  waiters_eq := hwaiters
  covered := History.Covered.update h.covered hnotifies hawaits
  noneLost w a val hw := by
    obtain ⟨-, hw⟩ := of_update hw (hawake a val)
    exact h.noneLost w a val hw

/-- A waiter enters the count of an entry, or leaves it. -/
theorem InvAt.waiters_shift (h : InvAt entry waiters pc history) {e₀ : E} {n : ℤ}
    (hcounted : ∀ e, ((p.counted entry e : ℕ) : ℤ) =
      (pc t).counted entry e + if e = e₀ then n else 0) (e : E) :
    Function.update waiters e₀ (waiters e₀ + n) e =
      total (Point.counted entry e) (Function.update pc t p) := by
  have htotal := total_update (Point.counted entry e) pc t p
  have heq := h.waiters_eq e
  have hone := hcounted e
  by_cases he : e = e₀
  · rw [if_pos he] at hone
    rw [he, Function.update_self]
    rw [he] at heq hone htotal
    omega
  · rw [if_neg he] at hone
    rw [Function.update_of_ne he]
    omega

/-- A notification is called. -/
theorem InvAt.call {concerns : ι → Bool} {all : Bool} (h : InvAt entry waiters pc history)
    (hidle : pc t = .idle)
    (hconcerns : ∀ w, concerns w = true → all = true ∧ ∃ val, (pc w).awaits = some (a, val)) :
    InvAt entry waiters (Function.update pc t (.loadWaiters all a))
      (history.call t concerns) where
  waiters_eq := h.waiters_update fun e => by rw [hidle]; rfl
  covered := by
    cases all with
    | true =>
        exact History.Covered.call h.covered (congrArg Point.awaits hidle) rfl
          fun w hw => (hconcerns w hw).2
    | false =>
        intro n w hcovers
        rw [History.covers_call] at hcovers
        split at hcovers
        · exact absurd (hconcerns w hcovers.1).1 Bool.false_ne_true
        · exact History.Covered.update h.covered (by rw [hidle]; rfl) (by rw [hidle]; rfl) n w
            hcovers
  noneLost w b val hw := by
    obtain ⟨-, hw⟩ := of_update hw nofun
    exact h.noneLost w b val hw

/-- A notification completes and leaves no sleeper behind that it was to wake.
Other threads are where they were, or have been woken. -/
theorem InvAt.complete (h : InvAt entry waiters pc history) (hfrom : (pc t).Notifier)
    (hmoved : ∀ w, w ≠ t → pc' w = pc w ∨ pc' w = (pc w).awake)
    (hnone : ∀ a w val, (pc t).notifies = some a → w ≠ t → pc' w ≠ .asleep a val) :
    InvAt entry waiters (Function.update pc' t .idle) (history.complete t) where
  waiters_eq e := by
    rw [h.waiters_eq e]
    congr 1
    refine Finset.sum_congr rfl fun w _ => ?_
    by_cases hw : w = t
    · rw [hw, Function.update_self, hfrom.counted]
      rfl
    · rw [Function.update_of_ne hw]
      rcases hmoved w hw with heq | heq
      · rw [heq]
      · rw [heq, awake_counted]
  covered := by
    refine History.Covered.complete h.covered hfrom.awaits ?_ ?_
    · intro n b hn hnotifies
      rw [Function.update_of_ne hn]
      rcases hmoved n hn with heq | heq
      · rwa [heq]
      · rwa [heq, awake_notifies]
    · intro w hw
      rw [Function.update_of_ne hw]
      rcases hmoved w hw with heq | heq
      · rw [heq]
      · rw [heq, awake_awaits]
  noneLost w b val hw hnotified := by
    obtain ⟨hwt, hw⟩ := of_update hw nofun
    have hold : pc w = .asleep b val := by
      rcases hmoved w hwt with heq | heq
      · rw [← heq, hw]
      · exact absurd (heq.symm.trans hw) (awake_ne_asleep _)
    rcases History.notified_complete.mp hnotified with hbefore | hcovers
    · exact h.noneLost w b val hold hbefore
    · obtain ⟨a, val', hnotifies, hawaits⟩ := h.covered t w hcovers
      rw [hold] at hawaits
      obtain ⟨rfl, rfl⟩ := Prod.mk.inj (Option.some.inj hawaits)
      exact hnone b w val hnotifies hwt hw

end Invariant

/-! ## Runs -/

section Runs

variable {ι A E V : Type} [Fintype ι] [DecidableEq ι] [DecidableEq A] [DecidableEq E]
  [DecidableEq V]

def Inv (entry : A → E) (s : State ι A E V) : Prop := InvAt entry s.waiters s.pc s.history

variable {entry : A → E} {s s' : State ι A E V} {t w : ι}

omit [DecidableEq ι] [DecidableEq A] [DecidableEq V] in
theorem inv_start (h : Start s) : Inv entry s := by
  obtain ⟨hwaiters, hidle, hhistory⟩ := h
  refine ⟨fun e => ?_, ?_, ?_⟩
  · rw [hwaiters e, total_const_zero]
    · rfl
    · intro t
      rw [hidle t]
      rfl
  · intro n w hcovers
    rw [hhistory] at hcovers
    cases hcovers
  · intro w a val hw
    rw [hidle w] at hw
    cases hw

omit [DecidableEq V] in
theorem inv_wakeAll {a : A} (h : Inv entry s) (hpc : s.pc t = .platformWake true a) :
    Inv entry ((s.wakeAll a).complete t) := by
  refine h.complete ⟨true, a, Or.inr hpc⟩ ?_ ?_
  · intro w _
    exact (wake_cases a (s.pc w)).elim Or.inr fun hsame => Or.inl hsame.1
  · intro b w val hnotifies _ hw
    rw [hpc] at hnotifies
    obtain rfl := Option.some.inj hnotifies
    rcases wake_cases a (s.pc w) with hawake | ⟨hsame, hnot⟩
    · exact awake_ne_asleep _ (hawake.symm.trans hw)
    · exact hnot val (hsame.symm.trans hw)

theorem inv_next (h : Inv entry s) (hstep : s.next entry t = some s') : Inv entry s' := by
  cases hpc : s.pc t with
  | idle => simp only [State.next, hpc, reduceCtorEq] at hstep
  | asleep a val => simp only [State.next, hpc, reduceCtorEq] at hstep
  | poll a val i =>
      simp only [State.next, hpc, Option.some.injEq] at hstep
      subst hstep
      refine h.observe (fun e => ?_) (by rw [hpc]; rfl)
      rw [hpc]
      split_ifs <;> rfl
  | check a val =>
      simp only [State.next, hpc, Option.some.injEq] at hstep
      subst hstep
      refine h.observe (fun e => ?_) (by rw [hpc]; rfl)
      rw [hpc]
      split_ifs <;> rfl
  | addWaiters a val =>
      simp only [State.next, hpc, Option.some.injEq] at hstep
      subst hstep
      refine h.advance (h.waiters_shift fun e => ?_) (by rw [hpc]; rfl) (by rw [hpc]; rfl) nofun
      rw [hpc]
      by_cases he : e = entry a
      · simp [Point.counted, he]
      · simp [Point.counted, he, Ne.symm he]
  | platformWait a val =>
      simp only [State.next, hpc, Option.some.injEq] at hstep
      subst hstep
      refine h.observe (fun e => ?_) (by rw [hpc]; rfl)
      rw [hpc]
      split_ifs <;> rfl
  | subWaiters a val =>
      simp only [State.next, hpc, Option.some.injEq] at hstep
      subst hstep
      refine h.advance (h.waiters_shift fun e => ?_) (by rw [hpc]; rfl) (by rw [hpc]; rfl) nofun
      rw [hpc]
      by_cases he : e = entry a
      · simp [Point.counted, he]
      · simp [Point.counted, he, Ne.symm he]
  | loadWaiters all a =>
      simp only [State.next, hpc, Option.some.injEq] at hstep
      split_ifs at hstep with hcount
      · subst hstep
        refine h.advance (h.waiters_update fun e => by rw [hpc]; rfl) ?_ (by rw [hpc]; rfl) nofun
        rw [hpc]
        cases all <;> rfl
      · subst hstep
        refine h.complete ⟨all, a, Or.inl hpc⟩ (fun _ _ => Or.inl rfl) ?_
        intro b w val hnotifies _
        cases all with
        | true =>
            rw [hpc] at hnotifies
            obtain rfl := Option.some.inj hnotifies
            exact h.not_asleep (not_not.mp hcount) w val
        | false =>
            rw [hpc] at hnotifies
            cases hnotifies
  | platformWake all a =>
      cases all with
      | true =>
          simp only [State.next, hpc, Option.some.injEq] at hstep
          subst hstep
          exact inv_wakeAll h hpc
      | false =>
          simp only [State.next, hpc] at hstep
          split_ifs at hstep
          obtain rfl := Option.some.inj hstep
          refine h.complete ⟨false, a, Or.inr hpc⟩ (fun _ _ => Or.inl rfl) ?_
          intro b w val hnotifies
          rw [hpc] at hnotifies
          cases hnotifies

theorem inv_step {l : Label ι A V} (h : Inv entry s) (hstep : step entry s l = some s') :
    Inv entry s' := by
  cases l with
  | wait t a val =>
      rw [step] at hstep
      split_ifs at hstep with hidle
      obtain rfl := Option.some.inj hstep
      exact h.observe (fun e => by rw [hidle]; rfl) (by rw [hidle]; rfl)
  | store t a v =>
      rw [step] at hstep
      split_ifs at hstep
      obtain rfl := Option.some.inj hstep
      exact ⟨h.waiters_eq, h.covered, h.noneLost⟩
  | notify t all a =>
      rw [step] at hstep
      split_ifs at hstep with hidle
      obtain rfl := Option.some.inj hstep
      refine h.call hidle fun w hw => ?_
      obtain ⟨hall, hw⟩ := Bool.and_eq_true_iff.mp hw
      obtain ⟨⟨b, val⟩, hawaits, hb⟩ := (Option.any_eq_true _ _).mp hw
      obtain rfl : b = a := by simpa using hb
      exact ⟨hall, val, hawaits⟩
  | step t => exact inv_next h hstep
  | wakeOne t w =>
      rw [step] at hstep
      split at hstep
      · rename_i a hpc
        split_ifs at hstep
        obtain rfl := Option.some.inj hstep
        refine h.complete ⟨false, a, Or.inr hpc⟩ ?_ ?_
        · intro u _
          by_cases hu : u = w
          · rw [hu]
            exact Or.inr (Function.update_self _ _ _)
          · exact Or.inl (Function.update_of_ne hu _ _)
        · intro b u val hnotifies
          rw [hpc] at hnotifies
          cases hnotifies
      · cases hstep
  | interrupt w =>
      obtain rfl := Option.some.inj hstep
      exact h.advance (h.waiters_update fun e => awake_counted _ entry e) (awake_notifies _)
        (awake_awaits _) fun _ _ => awake_ne_asleep _

/-- In every run, each entry counts exactly its waiters on the way into the
kernel, in it and out of it; a notification that finds no count leaves no
sleeper on its address; and no wake-up is lost. -/
theorem native_none_lost (entry : A → E) (s : State ι A E V)
    (h : (system ι A E V entry).Reachable (fun _ _ => True) s) :
    (∀ e, s.waiters e = total (Point.counted entry e) s.pc) ∧
      (∀ t all a, s.pc t = .loadWaiters all a → s.waiters (entry a) = 0 →
        ∀ w val, s.pc w ≠ .asleep a val) ∧
      NoneLost s := by
  have hinv : Inv entry s :=
    h.invariant (P := Inv entry) (fun _ => inv_start) fun _ _ _ hinv _ => inv_step hinv
  exact ⟨hinv.waiters_eq, fun _ _ _ _ hzero w val => hinv.not_asleep hzero w val, hinv.noneLost⟩

/-- Two threads sleep on addresses that share an entry; the notification of one
address finds the count at 2 and wakes its sleeper only. -/
theorem native_none_lost_shared :
    ∃ s : State (Fin 3) Bool Unit ℕ, s.waiters () = 2 ∧ s.pc 0 = .subWaiters false 5 ∧
      s.pc 1 = .asleep true 7 ∧ s.history.notified 0 = true ∧
      s.waiters () = total (Point.counted (fun _ => ()) ()) s.pc ∧ NoneLost s := by
  have hexec : ∃ s, (system (Fin 3) Bool Unit ℕ fun _ => ()).exec (fun _ _ => True)
      ⟨fun a => if a then 7 else 5, fun _ => 0, fun _ => .idle, .empty⟩
      (.wait 0 false 5 :: List.replicate 19 (.step 0) ++ .wait 1 true 7 ::
        List.replicate 19 (.step 1) ++
        [.store 2 false 6, .notify 2 true false, .step 2, .step 2]) = some s ∧
      s.waiters () = 2 ∧ s.pc 0 = .subWaiters false 5 ∧ s.pc 1 = .asleep true 7 ∧
      s.history.notified 0 = true :=
    ⟨_, rfl, by decide, by decide, by decide, by decide⟩
  obtain ⟨s, hs, hwaiters, hwoken, hasleep, hnotified⟩ := hexec
  have h := native_none_lost (fun _ => ()) s
    (System.reachable_of_exec ⟨fun _ => rfl, fun _ => rfl, rfl⟩ hs)
  exact ⟨s, hwaiters, hwoken, hasleep, hnotified, h.1 (), h.2.2⟩

end Runs

end Libhipcxx.Wait.NativeFutex
