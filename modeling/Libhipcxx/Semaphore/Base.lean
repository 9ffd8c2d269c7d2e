import Libhipcxx.Semaphore.Units
import Mathlib.Logic.Function.Basic

/-!
# Threads on one atomic counter

Both `__atomic_semaphore_base` templates are a set of program points, one
atomic step for each of them, and one atomic `release`.  This module runs any
number of threads over such a base, records what each call has taken, and
proves what the laws of a base give in every run: the base refines the counter
of units, a call that reports success has taken one unit and any other none,
and a `try_acquire` fails only where the counter was zero.
-/

namespace Libhipcxx.Semaphore

open Transition

/-- The public acquiring functions.  `timedAcquire` is `try_acquire_until` and
`try_acquire_for`. -/
inductive Call where
  | tryAcquire
  | acquire
  | timedAcquire
  deriving DecidableEq

/-- What can be seen of a thread from outside.  `acquire` returns nothing; it
reports `true` here. -/
inductive Status where
  | idle
  | running (call : Call)
  | returned (call : Call) (result : Bool)
  deriving DecidableEq

/-- What one atomic step leaves open: a weak compare-exchange may fail although
the value matches, and the clock of a timed wait may have run out. -/
inductive Choice where
  | ordinary
  | spuriousFailure
  | timeExpired
  deriving DecidableEq

/-- The code of a semaphore: program points `π`, where each public function
begins, the atomic step taken at a point, and `release`.  `next` has no step
outside the functions, and `release` none where its assertion fails. -/
structure Base (π : Type) where
  max : ℤ
  idle : π
  enter : Call → π
  status : π → Status
  next : π → Choice → ℤ → Option (ℤ × π)
  release : ℕ → ℤ → Option ℤ

/-- The counter, the point of every thread, and three records that the code
does not read: the units released, the calls that succeeded, and the change
each thread's current call has made to the counter. -/
structure State (ι : Type) (π : Type) where
  count : ℤ
  pc : ι → π
  released : ℕ
  successes : ℕ
  taken : ι → ℤ

inductive Label (ι : Type) where
  | call (t : ι) (call : Call)
  | step (t : ι) (choice : Choice)
  | release (t : ι) (update : ℕ)
  | ret (t : ι)

variable {ι : Type} [DecidableEq ι] {π : Type}

namespace Base

def isSuccess : Status → Bool
  | .returned _ true => true
  | _ => false

/-- One step of the whole system. -/
def step (B : Base π) (s : State ι π) : Label ι → Option (State ι π)
  | .call t call =>
      if B.status (s.pc t) = .idle then
        some { s with
          pc := Function.update s.pc t (B.enter call)
          taken := Function.update s.taken t 0 }
      else none
  | .step t choice =>
      (B.next (s.pc t) choice s.count).map fun (count, pc) =>
        { s with
          count := count
          pc := Function.update s.pc t pc
          successes := s.successes + (isSuccess (B.status pc)).toNat
          taken := Function.update s.taken t
            (s.taken t + (s.count - count)) }
  | .release t update =>
      if B.status (s.pc t) = .idle then
        (B.release update s.count).map fun count =>
          { s with count := count, released := s.released + update }
      else none
  | .ret t =>
      match B.status (s.pc t) with
      | .returned _ _ => some { s with pc := Function.update s.pc t B.idle }
      | _ => none

/-- All threads start outside the functions, with the initial count. -/
def start (B : Base π) (init : ℕ) : State ι π where
  count := init
  pc _ := B.idle
  released := 0
  successes := 0
  taken _ := 0

def system (B : Base π) (ι : Type) [DecidableEq ι] (init : ℕ) :
    System (State ι π) (Label ι) where
  start s := s = B.start init
  step := B.step

/-- `release` is called within `max()`.  For a maximum of one and an update of
one this says that the count is zero. -/
def WithinMax (B : Base π) (s : State ι π) : Label ι → Prop
  | .release _ update => s.count + update ≤ B.max
  | _ => True

instance {ι π : Type} (B : Base π) (s : State ι π) : (l : Label ι) → Decidable (B.WithinMax s l)
  | .release _ _ => inferInstanceAs (Decidable (_ ≤ _))
  | .call _ _ | .step _ _ | .ret _ => inferInstanceAs (Decidable True)

/-- An atomic step takes a unit and reports success, or leaves the counter and
reports no success; and `try_acquire` gives up only on an empty counter. -/
inductive Effect (count count' : ℤ) : Status → Prop
  | take (call : Call) (hpos : 0 < count) (hcount : count' = count - 1) :
      Effect count count' (.returned call true)
  | fail (call : Call) (hcount : count' = count)
      (hzero : call = .tryAcquire → count = 0) (hcall : call ≠ .acquire) :
      Effect count count' (.returned call false)
  | run (call : Call) (hcount : count' = count) :
      Effect count count' (.running call)

/-- The laws of a base.  Its counter is only ever looked at between zero and
`max()`. -/
structure Lawful (B : Base π) : Prop where
  status_idle : B.status B.idle = .idle
  status_enter : ∀ call, B.status (B.enter call) = .running call
  next_running : ∀ {pc choice count count' pc'},
    B.next pc choice count = some (count', pc') →
    ∃ call, B.status pc = .running call ∧
      (B.status pc' = .running call ∨
        ∃ result, B.status pc' = .returned call result)
  next_effect : ∀ {pc choice count count' pc'}, 0 ≤ count → count ≤ B.max →
    B.next pc choice count = some (count', pc') →
    Effect count count' (B.status pc')
  release_eq : ∀ {update : ℕ} {count count' : ℤ}, 0 ≤ count →
    count + update ≤ B.max → B.release update count = some count' →
    count' = count + update

end Base

open Base

variable {B : Base π} {init : ℕ} {s s' : State ι π}

/-- What a step of each kind does. -/
theorem step_cases {l : Label ι} (h : B.step s l = some s') :
    (∃ t call, l = .call t call ∧ B.status (s.pc t) = .idle ∧
      s' = { s with
        pc := Function.update s.pc t (B.enter call)
        taken := Function.update s.taken t 0 }) ∨
    (∃ t choice count pc, l = .step t choice ∧
      B.next (s.pc t) choice s.count = some (count, pc) ∧
      s' = { s with
        count := count
        pc := Function.update s.pc t pc
        successes := s.successes + (isSuccess (B.status pc)).toNat
        taken := Function.update s.taken t (s.taken t + (s.count - count)) }) ∨
    (∃ t update count, l = .release t update ∧
      B.status (s.pc t) = .idle ∧ B.release update s.count = some count ∧
      s' = { s with count := count, released := s.released + update }) ∨
    (∃ t call result, l = .ret t ∧
      B.status (s.pc t) = .returned call result ∧
      s' = { s with pc := Function.update s.pc t B.idle }) := by
  cases l with
  | call t call =>
      rw [Base.step] at h
      split at h
      · rename_i hidle
        exact Or.inl ⟨t, call, rfl, hidle, (Option.some.inj h).symm⟩
      · cases h
  | step t choice =>
      obtain ⟨⟨count, pc⟩, hnext, hs'⟩ := Option.map_eq_some_iff.mp h
      exact Or.inr (Or.inl ⟨t, choice, count, pc, rfl, hnext, hs'.symm⟩)
  | release t update =>
      rw [Base.step] at h
      split at h
      · rename_i hidle
        obtain ⟨count, hrelease, hs'⟩ := Option.map_eq_some_iff.mp h
        exact Or.inr (Or.inr (Or.inl
          ⟨t, update, count, rfl, hidle, hrelease, hs'.symm⟩))
      · cases h
  | ret t =>
      rw [Base.step] at h
      split at h
      · rename_i call result hreturned
        exact Or.inr (Or.inr (Or.inr
          ⟨t, call, result, rfl, hreturned, (Option.some.inj h).symm⟩))
      · cases h

/-! ## The counter of units -/

/-- Forget the threads. -/
def State.units (s : State ι π) : Units :=
  ⟨s.count, s.released, s.successes⟩

omit [DecidableEq ι] in
theorem effect_of_next (hB : B.Lawful) (hbal : s.units.Balanced init B.max)
    {t : ι} {choice : Choice} {count : ℤ} {pc : π}
    (hnext : B.next (s.pc t) choice s.count = some (count, pc)) :
    Effect s.count count (B.status pc) :=
  hB.next_effect hbal.nonneg hbal.le_max hnext

/-- Every step of the system gives units, takes one unit, or does not touch
the counter. -/
theorem step_refines_units (hB : B.Lawful) {l : Label ι}
    (hbal : s.units.Balanced init B.max) (hmax : B.WithinMax s l)
    (hstep : B.step s l = some s') :
    s'.units = s.units ∨
      ∃ event, Units.WithinMax B.max s.units event ∧
        s.units.step event = some s'.units := by
  rcases step_cases hstep with ⟨t, call, rfl, hidle, rfl⟩ |
    ⟨t, choice, count, pc, rfl, hnext, rfl⟩ |
    ⟨t, update, count, rfl, hidle, hrelease, rfl⟩ |
    ⟨t, call, result, rfl, hreturned, rfl⟩
  · exact Or.inl rfl
  · have heffect := effect_of_next hB hbal hnext
    generalize hpc : B.status pc = status at heffect
    cases heffect with
    | take call hpos hcount =>
        right
        refine ⟨.take, trivial, ?_⟩
        simp [Units.step, State.units, hpos, hcount, isSuccess]
    | fail call hcount hzero hcall =>
        left
        simp [State.units, hcount, isSuccess]
    | run call hcount =>
        left
        simp [State.units, hcount, isSuccess]
  · right
    have hcount := hB.release_eq hbal.nonneg hmax hrelease
    exact ⟨.give update, hmax, by simp [Units.step, State.units, hcount]⟩
  · exact Or.inl rfl

/-- The threads together refine the counter of units. -/
theorem units_reachable (hB : B.Lawful) (hinit : (init : ℤ) ≤ B.max)
    (h : (B.system ι init).Reachable B.WithinMax s) :
    (Units.machine init).Reachable (Units.WithinMax B.max) s.units := by
  refine h.refine ?_ ?_
  · rintro s rfl
    rfl
  · intro s l s' habs hmax hstep
    have hbal := Units.balanced_of_reachable hinit habs
    exact step_refines_units hB hbal hmax hstep

theorem balanced_of_reachable (hB : B.Lawful) (hinit : (init : ℤ) ≤ B.max)
    (h : (B.system ι init).Reachable B.WithinMax s) :
    s.units.Balanced init B.max :=
  Units.balanced_of_reachable hinit (units_reachable hB hinit h)

/-! ## One unit for each success -/

/-- A call that is still running has taken nothing; one that has returned has
taken one unit if it succeeded and nothing otherwise. -/
def TakenBy (status : Status) (taken : ℤ) : Prop :=
  match status with
  | .idle => True
  | .running _ => taken = 0
  | .returned _ result => taken = if result then 1 else 0

/-- After an atomic step of a call that had taken nothing. -/
theorem Base.Effect.takenBy {count count' : ℤ} {status : Status}
    (h : Effect count count' status) : TakenBy status (0 + (count - count')) := by
  cases h with
  | take call hpos hcount =>
      simp only [TakenBy, hcount, ↓reduceIte]
      omega
  | fail call hcount hzero hcall => simp [TakenBy, hcount]
  | run call hcount => simp [TakenBy, hcount]

def Settled (B : Base π) (s : State ι π) : Prop :=
  ∀ t, TakenBy (B.status (s.pc t)) (s.taken t)

theorem settled_step (hB : B.Lawful) {l : Label ι}
    (hbal : s.units.Balanced init B.max) (h : Settled B s)
    (hstep : B.step s l = some s') : Settled B s' := by
  rcases step_cases hstep with ⟨t, call, rfl, hidle, rfl⟩ |
    ⟨t, choice, count, pc, rfl, hnext, rfl⟩ |
    ⟨t, update, count, rfl, hidle, hrelease, rfl⟩ |
    ⟨t, call, result, rfl, hreturned, rfl⟩
  · intro u
    by_cases hu : u = t
    · subst hu
      simp [hB.status_enter, TakenBy]
    · simpa [hu] using h u
  · intro u
    by_cases hu : u = t
    · subst hu
      obtain ⟨call, hrunning, -⟩ := hB.next_running hnext
      have htaken : s.taken u = 0 := by
        have := h u
        rwa [hrunning] at this
      simp only [Function.update_self, htaken]
      exact (effect_of_next hB hbal hnext).takenBy
    · simpa [hu] using h u
  · exact h
  · intro u
    by_cases hu : u = t
    · subst hu
      simp [hB.status_idle, TakenBy]
    · simpa [hu] using h u

theorem settled_of_reachable (hB : B.Lawful) (hinit : (init : ℤ) ≤ B.max)
    (h : (B.system ι init).Reachable B.WithinMax s) : Settled B s := by
  have hboth : (B.system ι init).Reachable B.WithinMax s ∧ Settled B s := by
    refine h.invariant
      (P := fun s => (B.system ι init).Reachable B.WithinMax s ∧ Settled B s)
      ?_ ?_
    · intro s hs
      refine ⟨System.Reachable.of_start hs, ?_⟩
      intro t
      obtain rfl : s = B.start init := hs
      simp [Base.start, hB.status_idle, TakenBy]
    · rintro s l s' ⟨hreach, hsettled⟩ hmax hstep
      refine ⟨hreach.step hmax hstep, ?_⟩
      exact settled_step hB (balanced_of_reachable hB hinit hreach) hsettled
        hstep
  exact hboth.2

/-! ## Failing `try_acquire` -/

/-- The label neither begins nor ends a call of the thread. -/
def Label.WithinCall (t : ι) : Label ι → Prop
  | .call u _ => u ≠ t
  | .ret u => u ≠ t
  | _ => True

/-- A step after which a `try_acquire` has returned `false` either is the one
that found the counter empty, or the call had returned before. -/
theorem tryAcquire_false_step (hB : B.Lawful) {l : Label ι} {t : ι}
    (hbal : s.units.Balanced init B.max) (hstep : B.step s l = some s')
    (hfalse : B.status (s'.pc t) = .returned .tryAcquire false) :
    l.WithinCall t ∧
      (B.status (s.pc t) = .returned .tryAcquire false ∨
        (B.status (s.pc t) = .running .tryAcquire ∧ s.count = 0)) := by
  rcases step_cases hstep with ⟨u, call, rfl, hidle, rfl⟩ |
    ⟨u, choice, count, pc, rfl, hnext, rfl⟩ |
    ⟨u, update, count, rfl, hidle, hrelease, rfl⟩ |
    ⟨u, call, result, rfl, hreturned, rfl⟩
  · by_cases hu : u = t
    · subst hu
      simp [hB.status_enter] at hfalse
    · simp only [Function.update_of_ne (Ne.symm hu)] at hfalse
      exact ⟨hu, Or.inl hfalse⟩
  · by_cases hu : u = t
    · subst hu
      simp only [Function.update_self] at hfalse
      obtain ⟨call, hrunning, hcall⟩ := hB.next_running hnext
      have heffect := effect_of_next hB hbal hnext
      rw [hfalse] at hcall heffect
      refine ⟨trivial, Or.inr ?_⟩
      cases heffect with
      | fail _ hcount hzero hne =>
          rcases hcall with hcall | ⟨result, hcall⟩
          · cases hcall
          · cases hcall
            exact ⟨hrunning, hzero rfl⟩
    · simp only [Function.update_of_ne (Ne.symm hu)] at hfalse
      exact ⟨trivial, Or.inl hfalse⟩
  · exact ⟨trivial, Or.inl hfalse⟩
  · by_cases hu : u = t
    · subst hu
      simp [hB.status_idle] at hfalse
    · simp only [Function.update_of_ne (Ne.symm hu)] at hfalse
      exact ⟨hu, Or.inl hfalse⟩

/-- Where a `try_acquire` has returned `false`, the run passed, within that
call, a state in which the counter was zero. -/
theorem tryAcquire_false_of_path (hB : B.Lawful) (hinit : (init : ℤ) ≤ B.max)
    {u : State ι π} {ls : List (Label ι)} {t : ι}
    (hpath : (B.system ι init).Path B.WithinMax (B.start init) ls u)
    (hfalse : B.status (u.pc t) = .returned .tryAcquire false) :
    ∃ before after m, ls = before ++ after ∧
      (B.system ι init).Path B.WithinMax (B.start init) before m ∧
      (B.system ι init).Path B.WithinMax m after u ∧
      (∀ l ∈ after, l.WithinCall t) ∧
      B.status (m.pc t) = .running .tryAcquire ∧ m.count = 0 := by
  induction hpath with
  | nil =>
      simp [Base.start, hB.status_idle] at hfalse
  | @snoc m u ls l hpath hmax hstep ih =>
      have hbal : m.units.Balanced init B.max :=
        balanced_of_reachable hB hinit ⟨_, ls, rfl, hpath⟩
      obtain ⟨hwithin, hprev | ⟨hrunning, hzero⟩⟩ :=
        tryAcquire_false_step hB hbal hstep hfalse
      · obtain ⟨before, after, k, hls, hfirst, hrest, hcall, hk⟩ := ih hprev
        refine ⟨before, after ++ [l], k, ?_, hfirst,
          hrest.snoc hmax hstep, ?_, hk⟩
        · rw [hls, List.append_assoc]
        · intro l' hl'
          rcases List.mem_append.mp hl' with hl' | hl'
          · exact hcall l' hl'
          · rw [List.mem_singleton.mp hl']
            exact hwithin
      · refine ⟨ls, [l], m, rfl, hpath, System.Path.single hmax hstep, ?_,
          hrunning, hzero⟩
        intro l' hl'
        rw [List.mem_singleton.mp hl']
        exact hwithin

end Libhipcxx.Semaphore
