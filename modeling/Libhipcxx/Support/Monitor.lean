import Libhipcxx.Support.Transition
import Mathlib.Data.Fintype.Basic
import Mathlib.Logic.Function.Basic
import Mathlib.Tactic.SplitIfs

/-!
# Monitors

Threads work on a shared state under one mutex and wait on condition variables.
What a thread does from the moment it takes the mutex until it releases it, or
waits, is one step: no other thread sees a state in between.  A wait may end
without a notification, and one with a time may end by a timeout.

A program says what one step does.  The rules of this module are for sleepers.  A
condition that holds when a thread falls asleep, and that no step takes away
without waking the thread, holds of every thread that is asleep.  Where a step
may take it away and leave the waking to a later one, or wakes one thread of
many, some thread that is awake is the one to go on.
-/

namespace Libhipcxx.Monitor

open Transition

/-- A notification of the threads that wait on `q`. -/
inductive Notify (Q : Type) where
  | one (q : Q)
  | all (q : Q)
  deriving DecidableEq

/-- How a step ends: at another point, or waiting, with the point to go on from. -/
inductive Next (Q P : Type) where
  | goto (p : P)
  | wait (q : Q) (p : P)
  deriving DecidableEq

/-- Where a thread is. -/
inductive Place (Q P : Type) where
  | ready (p : P)
  | asleep (q : Q) (p : P)
  deriving DecidableEq

/-- What one step does to the shared state; the choice `C` is what the thread
does next where that is not settled.  A wait that may time out goes on from
another point when it does. -/
structure Program (ι σ Q P C : Type) where
  block : ι → P → C → σ → Option (σ × Next Q P × Option (Notify Q))
  timeout : P → Option P

structure State (ι σ Q P : Type) where
  shared : σ
  place : ι → Place Q P

/-- A step, with the thread that a notification of one thread wakes; a wait that
ends without a notification; and a time that passes before the thread has the
mutex again, with a notification or without. -/
inductive Label (ι C : Type) where
  | run (t : ι) (c : C) (woken : ι)
  | wake (t : ι)
  | timeout (t : ι)
  deriving DecidableEq

variable {ι σ Q P C : Type}

/-- Where the thread goes on. -/
def Next.point : Next Q P → P
  | .goto p | .wait _ p => p

namespace Place

def next : Next Q P → Place Q P
  | .goto p => .ready p
  | .wait q p => .asleep q p

def point : Place Q P → P
  | .ready p | .asleep _ p => p

def sleepsOn [DecidableEq Q] (q : Q) : Place Q P → Bool
  | .ready _ => false
  | .asleep q' _ => decide (q' = q)

/-- The thread wakes if it sleeps on `q`. -/
def wake [DecidableEq Q] (q : Q) (l : Place Q P) : Place Q P :=
  if l.sleepsOn q then .ready l.point else l

variable [DecidableEq Q] {q q' : Q} {p : P} {l : Place Q P}

theorem sleepsOn_iff : l.sleepsOn q = true ↔ ∃ p, l = .asleep q p := by
  cases l with
  | ready p =>
    constructor
    · intro h
      cases h
    · rintro ⟨p', h⟩
      cases h
  | asleep q' p =>
    rw [sleepsOn, decide_eq_true_iff]
    constructor
    · rintro rfl
      exact ⟨p, rfl⟩
    · rintro ⟨p', h⟩
      cases h
      rfl

theorem point_wake (q : Q) (l : Place Q P) : (l.wake q).point = l.point := by
  rw [wake]
  split_ifs
  · rfl
  · rfl

/-- A thread that is still asleep was so before, on another condition. -/
theorem of_wake (h : l.wake q = .asleep q' p) : l = .asleep q' p ∧ q' ≠ q := by
  rw [wake] at h
  split_ifs at h with hsleeps
  subst h
  refine ⟨rfl, ?_⟩
  rintro rfl
  exact hsleeps (decide_eq_true rfl)

end Place

namespace Program

variable [DecidableEq ι] [DecidableEq Q] [Fintype ι]

/-- A notification reaches the threads asleep; of several only the one chosen,
where it is to reach one. -/
def notify (place : ι → Place Q P) (woken : ι) : Option (Notify Q) → Option (ι → Place Q P)
  | none => some place
  | some (.all q) => some fun t => (place t).wake q
  | some (.one q) =>
      if (place woken).sleepsOn q then
        some (Function.update place woken ((place woken).wake q))
      else if ∃ t, (place t).sleepsOn q = true then none
      else some place

def step (M : Program ι σ Q P C) (s : State ι σ Q P) : Label ι C → Option (State ι σ Q P)
  | .run t c woken =>
      match s.place t with
      | .ready p =>
          (M.block t p c s.shared).bind fun (shared, next, notification) =>
            (notify s.place woken notification).map fun place =>
              ⟨shared, Function.update place t (Place.next next)⟩
      | .asleep _ _ => none
  | .wake t =>
      match s.place t with
      | .asleep _ p => some { s with place := Function.update s.place t (.ready p) }
      | .ready _ => none
  | .timeout t =>
      (M.timeout (s.place t).point).map fun p' =>
        { s with place := Function.update s.place t (.ready p') }

def system (M : Program ι σ Q P C) (start : State ι σ Q P) : System (State ι σ Q P) (Label ι C) where
  start s := s = start
  step := M.step

end Program

/-- The points of all threads, awake or asleep. -/
def State.points (s : State ι σ Q P) (t : ι) : P := (s.place t).point

theorem State.points_of_ready {s : State ι σ Q P} {t : ι} {p : P} (h : s.place t = .ready p) :
    s.points t = p := by
  rw [points, h]
  rfl

theorem State.points_of_asleep {s : State ι σ Q P} {t : ι} {q : Q} {p : P}
    (h : s.place t = .asleep q p) : s.points t = p := by
  rw [points, h]
  rfl

namespace Program

variable [DecidableEq ι] [DecidableEq Q] [Fintype ι] {M : Program ι σ Q P C}
  {s s' : State ι σ Q P} {l : Label ι C} {q : Q} {p : P}

/-! ## One step -/

/-- A thread that is still asleep after a notification has not been reached: the
notification was none of all, and if it was one for its condition, it woke
another thread. -/
def Missed (n : Option (Notify Q)) (place : ι → Place Q P) (woken t : ι) (q : Q) : Prop :=
  n ≠ some (.all q) ∧ (n = some (.one q) → woken ≠ t ∧ ∃ p, place woken = .asleep q p)

theorem notify_cases {place place' : ι → Place Q P} {woken : ι} {n : Option (Notify Q)}
    (h : notify place woken n = some place') :
    (∀ t, (place' t).point = (place t).point) ∧
      ∀ t q p, place' t = .asleep q p → place t = .asleep q p ∧ Missed n place woken t q := by
  cases n with
  | none =>
    obtain rfl := Option.some.inj h
    refine ⟨fun _ => rfl, fun t q p hasleep => ⟨hasleep, ?_, ?_⟩⟩
    · intro hall
      cases hall
    · intro hone
      cases hone
  | some n =>
    cases n with
    | all q =>
      obtain rfl := Option.some.inj h
      refine ⟨fun t => Place.point_wake q (place t), fun t q' p hasleep => ?_⟩
      obtain ⟨hbefore, hne⟩ := Place.of_wake hasleep
      refine ⟨hbefore, ?_, ?_⟩
      · intro hall
        exact hne (Notify.all.inj (Option.some.inj hall)).symm
      · intro hone
        cases Option.some.inj hone
    | one q =>
      rw [notify] at h
      split_ifs at h with hsleeps hnone
      · obtain rfl := Option.some.inj h
        obtain ⟨p', hp'⟩ := Place.sleepsOn_iff.mp hsleeps
        have hwoken : (place woken).wake q = .ready p' := by
          rw [Place.wake, if_pos hsleeps, hp']
          rfl
        refine ⟨fun t => ?_, fun t q' p hasleep => ?_⟩
        · by_cases ht : t = woken
          · rw [ht, Function.update_self, Place.point_wake]
          · rw [Function.update_of_ne ht]
        · by_cases ht : t = woken
          · rw [ht, Function.update_self, hwoken] at hasleep
            cases hasleep
          · rw [Function.update_of_ne ht] at hasleep
            refine ⟨hasleep, ?_, fun hone => ⟨fun heq => ht heq.symm, p', ?_⟩⟩
            · intro hall
              cases Option.some.inj hall
            · rw [hp', Notify.one.inj (Option.some.inj hone)]
      · obtain rfl := Option.some.inj h
        refine ⟨fun _ => rfl, fun t q' p hasleep => ⟨hasleep, ?_, fun hone => ?_⟩⟩
        · intro hall
          cases Option.some.inj hall
        · rw [← Notify.one.inj (Option.some.inj hone)] at hasleep
          exact absurd ⟨t, Place.sleepsOn_iff.mpr ⟨p, hasleep⟩⟩ hnone

/-- A notification does not touch a thread that is awake. -/
theorem ready_of_notify {place place' : ι → Place Q P} {woken : ι} {n : Option (Notify Q)}
    (h : notify place woken n = some place') {t : ι} (ht : place t = .ready p) :
    place' t = .ready p := by
  have hwake (q : Q) : (place t).wake q = place t := by
    rw [ht, Place.wake, if_neg (by exact Bool.false_ne_true)]
  cases n with
  | none => exact Option.some.inj h ▸ ht
  | some n =>
    cases n with
    | all q =>
      obtain rfl := Option.some.inj h
      exact (hwake q).trans ht
    | one q =>
      rw [notify] at h
      split_ifs at h with hsleeps hnone
      · obtain rfl := Option.some.inj h
        by_cases hwoken : t = woken
        · subst hwoken
          rw [Function.update_self]
          exact (hwake q).trans ht
        · rwa [Function.update_of_ne hwoken]
      · obtain rfl := Option.some.inj h
        exact ht

/-- If a thread is still asleep on the condition, one has been woken. -/
theorem woken_of_notify {place place' : ι → Place Q P} {woken t : ι}
    (h : notify place woken (some (.one q)) = some place') (ht : place' t = .asleep q p) :
    ∃ p', place woken = .asleep q p' ∧ place' woken = .ready p' := by
  rw [notify] at h
  split_ifs at h with hsleeps hnone
  · obtain rfl := Option.some.inj h
    obtain ⟨p', hp'⟩ := Place.sleepsOn_iff.mp hsleeps
    refine ⟨p', hp', ?_⟩
    rw [Function.update_self, Place.wake, if_pos hsleeps, hp']
    rfl
  · obtain rfl := Option.some.inj h
    exact absurd ⟨t, Place.sleepsOn_iff.mpr ⟨p, ht⟩⟩ hnone

omit [DecidableEq Q] [Fintype ι] in
theorem points_update (place : ι → Place Q P) (t : ι) (l : Place Q P) :
    (fun u => (Function.update place t l u).point) =
      Function.update (fun u => (place u).point) t l.point := by
  funext u
  by_cases hu : u = t
  · rw [hu, Function.update_self, Function.update_self]
  · rw [Function.update_of_ne hu, Function.update_of_ne hu]

omit [DecidableEq Q] [Fintype ι] in
theorem asleep_of_update {place : ι → Place Q P} {t u : ι} {p' : P}
    (h : Function.update place t (.ready p') u = .asleep q p) : place u = .asleep q p := by
  by_cases hu : u = t
  · rw [hu, Function.update_self] at h
    cases h
  · rwa [Function.update_of_ne hu] at h

/-- What a block does to each thread. -/
theorem run_cases {t : ι} {c : C} {woken : ι} (h : M.step s (.run t c woken) = some s') :
    ∃ p next n, s.place t = .ready p ∧ M.block t p c s.shared = some (s'.shared, next, n) ∧
      s'.points = Function.update s.points t next.point ∧ s'.place t = Place.next next ∧
      ∀ u, u ≠ t → (∀ p', s.place u = .ready p' → s'.place u = .ready p') ∧
        ∀ q p', s'.place u = .asleep q p' →
          s.place u = .asleep q p' ∧ Missed n s.place woken u q ∧
            (n = some (.one q) → ∃ v p'', s.place v = .asleep q p'' ∧ s'.place v = .ready p'') := by
  rw [step] at h
  split at h
  · rename_i p hplace
    obtain ⟨⟨shared, next, n⟩, hblock, hnotify⟩ := Option.bind_eq_some_iff.mp h
    obtain ⟨place, hplaces, rfl⟩ := Option.map_eq_some_iff.mp hnotify
    obtain ⟨hpoints, hasleep⟩ := notify_cases hplaces
    have hnext : (Place.next next).point = next.point := by
      cases next with
      | goto _ => rfl
      | wait _ _ => rfl
    refine ⟨p, next, n, hplace, hblock, ?_, Function.update_self t _ place,
      fun u hu => ⟨fun p' hp' => ?_, fun q p' hp' => ?_⟩⟩
    · refine (points_update place t _).trans ?_
      rw [hnext, funext hpoints]
      rfl
    · exact (Function.update_of_ne hu _ place).trans (ready_of_notify hplaces hp')
    · have hu' : place u = .asleep q p' := (Function.update_of_ne hu _ place).symm.trans hp'
      obtain ⟨hbefore, hmissed⟩ := hasleep u q p' hu'
      refine ⟨hbefore, hmissed, ?_⟩
      rintro rfl
      obtain ⟨p'', hp'', hready⟩ := woken_of_notify hplaces hu'
      refine ⟨woken, p'', hp'', ?_⟩
      have hne : woken ≠ t := by
        rintro rfl
        rw [hplace] at hp''
        cases hp''
      exact (Function.update_of_ne hne _ place).trans hready
  · cases h

/-- What a step of each kind does to the shared state, to the points and to the
threads that are asleep after it. -/
theorem step_cases (h : M.step s l = some s') :
    (∃ t c woken p next n, l = .run t c woken ∧ s.place t = .ready p ∧
      M.block t p c s.shared = some (s'.shared, next, n) ∧
      s'.points = Function.update s.points t next.point ∧
      ∀ u q p', s'.place u = .asleep q p' →
        u = t ∧ next = .wait q p' ∨
          u ≠ t ∧ s.place u = .asleep q p' ∧ Missed n s.place woken u q) ∨
    (s'.shared = s.shared ∧
      (s'.points = s.points ∨ ∃ t p', l = .timeout t ∧ M.timeout (s.points t) = some p' ∧
        s'.points = Function.update s.points t p') ∧
      ∀ u q p', s'.place u = .asleep q p' → s.place u = .asleep q p') := by
  cases l with
  | run t c woken =>
    obtain ⟨p, next, n, hplace, hblock, hpoints, hself, hothers⟩ := run_cases h
    refine Or.inl ⟨t, c, woken, p, next, n, rfl, hplace, hblock, hpoints, fun u q p' hu => ?_⟩
    by_cases hut : u = t
    · rw [hut, hself] at hu
      refine Or.inl ⟨hut, ?_⟩
      cases next with
      | goto _ => cases hu
      | wait _ _ =>
        cases hu
        rfl
    · obtain ⟨hbefore, hmissed, -⟩ := (hothers u hut).2 q p' hu
      exact Or.inr ⟨hut, hbefore, hmissed⟩
  | wake t =>
    rw [step] at h
    split at h
    · rename_i q p hplace
      obtain rfl := Option.some.inj h
      refine Or.inr ⟨rfl, Or.inl ?_, fun u q' p' hu => ?_⟩
      · refine (points_update s.place t _).trans ?_
        refine Function.update_eq_self_iff.mpr ?_
        rw [hplace]
        rfl
      · exact asleep_of_update hu
    · cases h
  | timeout t =>
    obtain ⟨p', htimeout, rfl⟩ := Option.map_eq_some_iff.mp h
    exact Or.inr ⟨rfl, Or.inr ⟨t, p', rfl, htimeout, points_update s.place t _⟩,
      fun u q' p'' hu => asleep_of_update hu⟩

/-! ## The rules -/

variable {D : State ι σ Q P → Label ι C → Prop} {I : σ → (ι → P) → Prop} {start : State ι σ Q P}

/-- An invariant of the shared state and the points is one of every block and
every timeout. -/
theorem reachable_invariant (hstart : I start.shared start.points)
    (hblock : ∀ (s : State ι σ Q P) t c woken p σ' next n, I s.shared s.points → D s (.run t c woken) →
      s.place t = .ready p → M.block t p c s.shared = some (σ', next, n) →
      I σ' (Function.update s.points t next.point))
    (htimeout : ∀ (s : State ι σ Q P) t p', I s.shared s.points → M.timeout (s.points t) = some p' →
      I s.shared (Function.update s.points t p'))
    (h : (M.system start).Reachable D s) : I s.shared s.points := by
  refine h.invariant (P := fun s => I s.shared s.points) ?_ ?_
  · rintro s rfl
    exact hstart
  · intro s l s' hI hD hstep
    obtain ⟨t, c, woken, p, next, n, rfl, hplace, hrun, hpoints, -⟩ |
      ⟨hshared, hpoints | ⟨t, p', rfl, hp', hpoints⟩, -⟩ := step_cases hstep
    · rw [hpoints]
      exact hblock s t c woken p _ next n hI hD hplace hrun
    · rw [hshared, hpoints]
      exact hI
    · rw [hshared, hpoints]
      exact htimeout s t p' hI hp'

/-- The rule for sleepers.  A condition `W` that holds when a thread falls
asleep holds while it sleeps, if each block either keeps it, or wakes all that
wait, or wakes one where the thread is the only one. -/
theorem reachable_sleepers {W : Q → P → σ → Prop}
    (hstart : ∀ t q p, start.place t ≠ .asleep q p)
    (hsleep : ∀ s t c p σ' q p' n, (M.system start).Reachable D s → s.place t = .ready p →
      M.block t p c s.shared = some (σ', .wait q p', n) → W q p' σ')
    (hkeep : ∀ s t u c p σ' next n q p', (M.system start).Reachable D s → s.place t = .ready p →
      M.block t p c s.shared = some (σ', next, n) → u ≠ t → s.points u = p' →
      W q p' s.shared → W q p' σ' ∨ n = some (.all q) ∨
        n = some (.one q) ∧ ∀ v, W q (s.points v) s.shared → v = u)
    (h : (M.system start).Reachable D s) {t : ι} (ht : s.place t = .asleep q p) :
    W q p s.shared := by
  obtain ⟨r, ls, hr, hpath⟩ := h
  induction hpath generalizing t q p with
  | nil =>
    obtain rfl := hr
    exact absurd ht (hstart t q p)
  | @snoc m m' ls l hpath hD hstep ih =>
    have hreach : (M.system start).Reachable D m := ⟨_, ls, hr, hpath⟩
    obtain ⟨u, c, woken, p', next, n, rfl, hplace, hrun, -, hasleep⟩ | ⟨hshared, -, hasleep⟩ :=
      step_cases hstep
    · rcases hasleep t q p ht with ⟨rfl, rfl⟩ | ⟨hne, hbefore, hall, hone⟩
      · exact hsleep m t c p' _ q p n hreach hplace hrun
      · have hpoint : m.points t = p := by
          rw [State.points, hbefore]
          rfl
        have hW : W q p m.shared := ih hbefore
        rcases hkeep m u t c p' _ next n q p hreach hplace hrun hne
          (State.points_of_asleep hbefore) hW with hkept | heq | ⟨heq, honly⟩
        · exact hkept
        · exact absurd heq hall
        · obtain ⟨hother, p'', hp''⟩ := hone heq
          have hsame : m.points woken = p'' := State.points_of_asleep hp''
          exact absurd (honly woken (hsame ▸ ih hp'')) hother
    · rw [hshared]
      exact ih (hasleep t q p ht)

/-- The condition `W` holds of the thread, or there is a thread awake at a point of
`R`. -/
def Relayed (W : P → σ → Prop) (R : P → Prop) (s : State ι σ Q P) (p : P) : Prop :=
  W p s.shared ∨ ∃ u p', s.place u = .ready p' ∧ R p'

/-- The rule where a thread that is awake stands in.  A block goes on to a point
of `R`, or wakes all, or wakes one that comes to such a point, or `W` holds after
it; a block from a point that is not of `R` may also just keep `W`. -/
theorem reachable_relayed {W : P → σ → Prop} {R : P → Prop}
    (hstart : ∀ t p, start.place t ≠ .asleep q p)
    (hsleep : ∀ s t c p σ' p' n, (M.system start).Reachable D s → s.place t = .ready p →
      M.block t p c s.shared = some (σ', .wait q p', n) → W p' σ')
    (hrelay : ∀ s t c p σ' next n, (M.system start).Reachable D s → s.place t = .ready p →
      M.block t p c s.shared = some (σ', next, n) →
      (∃ p', next = .goto p' ∧ R p') ∨ n = some (.all q) ∨
        (n = some (.one q) ∧ ∀ u p', s.place u = .asleep q p' → R p') ∨
        (∀ u p', u ≠ t → s.place u = .asleep q p' → W p' σ') ∨
        ¬R p ∧ ∀ u p', u ≠ t → s.place u = .asleep q p' → W p' s.shared → W p' σ')
    (htimeout : ∀ p p', M.timeout p = some p' → R p → R p')
    (h : (M.system start).Reachable D s) {t : ι} (ht : s.place t = .asleep q p) :
    Relayed W R s p := by
  obtain ⟨r, ls, hr, hpath⟩ := h
  induction hpath generalizing t p with
  | nil =>
    obtain rfl := hr
    exact absurd ht (hstart t p)
  | @snoc m m' ls l hpath hD hstep ih =>
    have hreach : (M.system start).Reachable D m := ⟨_, ls, hr, hpath⟩
    cases l with
    | run u c woken =>
      obtain ⟨p', next, n, hplace, hblock, -, hself, hothers⟩ := run_cases hstep
      by_cases htu : t = u
      · subst htu
        rw [hself] at ht
        cases next with
        | goto p'' => cases ht
        | wait q' p'' =>
          cases ht
          exact Or.inl (hsleep m t c p' _ p n hreach hplace hblock)
      · obtain ⟨hbefore, ⟨hall, -⟩, hwoken⟩ := (hothers t htu).2 q p ht
        rcases hrelay m u c p' _ next n hreach hplace hblock with
          ⟨p'', rfl, hR⟩ | heq | ⟨hone, hR⟩ | hW | ⟨hR, hkeep⟩
        · exact Or.inr ⟨u, p'', hself, hR⟩
        · exact absurd heq hall
        · obtain ⟨v, p'', hv, hawake⟩ := hwoken hone
          exact Or.inr ⟨v, p'', hawake, hR v p'' hv⟩
        · exact Or.inl (hW t p htu hbefore)
        · rcases ih hbefore with hW | ⟨v, p'', hv, hRv⟩
          · exact Or.inl (hkeep t p htu hbefore hW)
          · have hvu : v ≠ u := by
              rintro rfl
              rw [hplace] at hv
              cases hv
              exact hR hRv
            exact Or.inr ⟨v, p'', (hothers v hvu).1 p'' hv, hRv⟩
    | wake u =>
      replace hstep : M.step m (.wake u) = some m' := hstep
      rw [step] at hstep
      split at hstep
      · rename_i q' p' hplace
        obtain rfl := Option.some.inj hstep
        rcases ih (asleep_of_update ht) with hW | ⟨v, p'', hv, hRv⟩
        · exact Or.inl hW
        · refine Or.inr ⟨v, p'', ?_, hRv⟩
          have hvu : v ≠ u := by
            rintro rfl
            rw [hplace] at hv
            cases hv
          exact (Function.update_of_ne hvu _ m.place).trans hv
      · cases hstep
    | timeout u =>
      obtain ⟨p', hp', rfl⟩ := Option.map_eq_some_iff.mp hstep
      rcases ih (asleep_of_update ht) with hW | ⟨v, p'', hv, hRv⟩
      · exact Or.inl hW
      · by_cases hvu : v = u
        · subst hvu
          rw [hv] at hp'
          exact Or.inr ⟨v, p', Function.update_self v _ m.place, htimeout p'' p' hp' hRv⟩
        · exact Or.inr ⟨v, p'', (Function.update_of_ne hvu _ m.place).trans hv, hRv⟩

end Program

end Libhipcxx.Monitor
