import Libhipcxx.Support.Monitor
import Libhipcxx.Support.Threads

/-!
# Calling a function once

`call_once` and `__call_once`.  All flags share one mutex and one condition
variable.  The function runs without the mutex; it may return, throw, or use
`call_once` itself, also with another flag, so each thread has a stack of the
flags whose functions it runs.
-/

namespace Libhipcxx.Mutex.CallOnce

open Transition Monitor Threads

variable {F : Type} [DecidableEq F]

/-- The flags; `completed` counts for each how often its function has returned. -/
structure Flags (F : Type) where
  state : F → BitVec 64
  completed : F → ℕ

/-- In code of the user; before `__call_once` takes the mutex; after the function
has returned or thrown; between the release of the mutex and the broadcast; and
back from `call_once`. -/
inductive Mode (F : Type) where
  | user
  | call (flag : F)
  | finished (flag : F)
  | threw (flag : F)
  | broadcast (flag : F) (ok : Bool)
  | returned (flag : F)
  | rethrown (flag : F)
  deriving DecidableEq

structure Point (F : Type) where
  stack : List F
  mode : Mode F
  deriving DecidableEq

/-- What code of the user does; `go` is any other step. -/
inductive Choice (F : Type) where
  | callOnce (flag : F)
  | returns
  | throws
  | go
  deriving DecidableEq

abbrev Result (F : Type) := Flags F × Next Unit (Point F) × Option (Notify Unit)

def done : BitVec 64 := ~~~0

def Flags.store (m : Flags F) (flag : F) (value : BitVec 64) : Flags F :=
  { m with state := Function.update m.state flag value }

/-- The load of `call_once`. -/
def callOnce (stack : List F) (flag : F) (m : Flags F) : Result F :=
  if m.state flag ≠ done then (m, .goto ⟨stack, .call flag⟩, none)
  else (m, .goto ⟨stack, .returned flag⟩, none)

/-- From the lock of the mutex to the call of the function, or to the end. -/
def call (stack : List F) (flag : F) (m : Flags F) : Result F :=
  if m.state flag = 1 then (m, .wait () ⟨stack, .call flag⟩, none)
  else if m.state flag = 0 then (m.store flag 1, .goto ⟨flag :: stack, .user⟩, none)
  else (m, .goto ⟨stack, .returned flag⟩, none)

def block : Point F → Choice F → Flags F → Option (Result F)
  | ⟨stack, .user⟩, .callOnce flag, m => some (callOnce stack flag m)
  | ⟨flag :: stack, .user⟩, .returns, m =>
      some ({ m with completed := Function.update m.completed flag (m.completed flag + 1) },
        .goto ⟨stack, .finished flag⟩, none)
  | ⟨flag :: stack, .user⟩, .throws, m => some (m, .goto ⟨stack, .threw flag⟩, none)
  | ⟨stack, .call flag⟩, .go, m => some (call stack flag m)
  | ⟨stack, .finished flag⟩, .go, m =>
      some (m.store flag done, .goto ⟨stack, .broadcast flag true⟩, none)
  | ⟨stack, .threw flag⟩, .go, m =>
      some (m.store flag 0, .goto ⟨stack, .broadcast flag false⟩, none)
  | ⟨stack, .broadcast flag ok⟩, .go, m =>
      some (m, .goto ⟨stack, if ok then .returned flag else .rethrown flag⟩, some (.all ()))
  | ⟨stack, .returned _⟩, .go, m => some (m, .goto ⟨stack, .user⟩, none)
  | ⟨stack, .rethrown _⟩, .go, m => some (m, .goto ⟨stack, .user⟩, none)
  | _, _, _ => none

def program (ι F : Type) [DecidableEq F] : Program ι (Flags F) Unit (Point F) (Choice F) where
  block _ := block
  timeout _ := none

def start (ι F : Type) : Monitor.State ι (Flags F) Unit (Point F) where
  shared := ⟨fun _ => 0, fun _ => 0⟩
  place _ := .ready ⟨[], .user⟩

/-! ## One step -/

namespace Point

/-- How often the thread is between the store of 1 to the flag and the next store. -/
def running (flag : F) (p : Point F) : ℕ :=
  p.stack.count flag + if p.mode = .finished flag ∨ p.mode = .threw flag then 1 else 0

/-- The function has returned, and the flag is not stored yet. -/
def finishing (flag : F) (p : Point F) : ℕ := if p.mode = .finished flag then 1 else 0

end Point

/-- The steps of a thread. -/
inductive Move (m : Flags F) :
    Point F → Flags F → Next Unit (Point F) → Option (Notify Unit) → Prop
  | enter {stack flag} : Move m ⟨stack, .user⟩ m (.goto ⟨stack, .call flag⟩) none
  | seen {stack mode flag} (hmode : mode = .user ∨ mode = .call flag) (hone : m.state flag ≠ 1)
      (hzero : m.state flag ≠ 0) : Move m ⟨stack, mode⟩ m (.goto ⟨stack, .returned flag⟩) none
  | wait {stack flag} (hone : m.state flag = 1) :
      Move m ⟨stack, .call flag⟩ m (.wait () ⟨stack, .call flag⟩) none
  | begin {stack flag} (hzero : m.state flag = 0) :
      Move m ⟨stack, .call flag⟩ (m.store flag 1) (.goto ⟨flag :: stack, .user⟩) none
  | returns {stack flag} : Move m ⟨flag :: stack, .user⟩
      { m with completed := Function.update m.completed flag (m.completed flag + 1) }
      (.goto ⟨stack, .finished flag⟩) none
  | throws {stack flag} : Move m ⟨flag :: stack, .user⟩ m (.goto ⟨stack, .threw flag⟩) none
  | finish {stack flag} : Move m ⟨stack, .finished flag⟩ (m.store flag done)
      (.goto ⟨stack, .broadcast flag true⟩) none
  | reset {stack flag} : Move m ⟨stack, .threw flag⟩ (m.store flag 0)
      (.goto ⟨stack, .broadcast flag false⟩) none
  | broadcast {stack flag ok} : Move m ⟨stack, .broadcast flag ok⟩ m
      (.goto ⟨stack, if ok then .returned flag else .rethrown flag⟩) (some (.all ()))
  | back {stack mode flag} (hmode : mode = .returned flag ∨ mode = .rethrown flag) :
      Move m ⟨stack, mode⟩ m (.goto ⟨stack, .user⟩) none

/-- What a step does to one flag, and to the number of its completed calls. -/
inductive Effect (flag : F) (p p' : Point F) : BitVec 64 → ℕ → BitVec 64 → ℕ → Prop
  | keep {v k} (hrunning : p'.running flag = p.running flag)
      (hfinishing : p'.finishing flag = p.finishing flag) : Effect flag p p' v k v k
  | begin {k} (hrunning : p'.running flag = p.running flag + 1)
      (hfinishing : p'.finishing flag = p.finishing flag) : Effect flag p p' 0 k 1 k
  | complete {v k} (hrunning : p'.running flag = p.running flag) (hp : p.finishing flag = 0)
      (hp' : p'.finishing flag = 1) : Effect flag p p' v k v (k + 1)
  | finish {v k} (hrunning : p.running flag = p'.running flag + 1) (hp : p.finishing flag = 1)
      (hp' : p'.finishing flag = 0) : Effect flag p p' v k done k
  | reset {v k} (hrunning : p.running flag = p'.running flag + 1)
      (hfinishing : p'.finishing flag = p.finishing flag) : Effect flag p p' v k 0 k

variable {flag g : F} {p p' : Point F} {m m' : Flags F} {next : Next Unit (Point F)}
  {n : Option (Notify Unit)} {stack : List F} {v v' : BitVec 64} {k k' : ℕ}

theorem running_cons : (⟨flag :: stack, .user⟩ : Point F).running g =
    stack.count g + if flag = g then 1 else 0 := by
  simp only [Point.running, List.count_cons, beq_iff_eq, reduceCtorEq, or_self, if_false, add_zero]

theorem running_finished : (⟨stack, .finished flag⟩ : Point F).running g =
    stack.count g + if flag = g then 1 else 0 := by
  simp only [Point.running, Mode.finished.injEq, reduceCtorEq, or_false]

theorem running_threw : (⟨stack, .threw flag⟩ : Point F).running g =
    stack.count g + if flag = g then 1 else 0 := by
  simp only [Point.running, Mode.threw.injEq, reduceCtorEq, false_or]

theorem finishing_finished :
    (⟨stack, .finished flag⟩ : Point F).finishing g = if flag = g then 1 else 0 := by
  simp only [Point.finishing, Mode.finished.injEq]

theorem block_move {c : Choice F} (h : block p c m = some (m', next, n)) :
    Move m p m' next n := by
  obtain ⟨stack, mode⟩ := p
  cases mode with
  | user =>
    cases c with
    | callOnce flag =>
      replace h := Option.some.inj h
      rw [callOnce] at h
      split_ifs at h with hdone
      · cases h
        exact Move.enter
      · cases h
        rw [not_not] at hdone
        exact Move.seen (Or.inl rfl) (by rw [hdone]; decide) (by rw [hdone]; decide)
    | returns =>
      cases stack with
      | nil => cases h
      | cons flag stack =>
        cases h
        exact Move.returns
    | throws =>
      cases stack with
      | nil => cases h
      | cons flag stack =>
        cases h
        exact Move.throws
    | go => cases stack <;> cases h
  | call flag =>
    cases c with
    | go =>
      replace h := Option.some.inj h
      rw [call] at h
      split_ifs at h with hone hzero
      · cases h
        exact Move.wait hone
      · cases h
        exact Move.begin hzero
      · cases h
        exact Move.seen (Or.inr rfl) hone hzero
    | _ => cases h
  | finished flag =>
    cases c with
    | go =>
      cases h
      exact Move.finish
    | _ => cases h
  | threw flag =>
    cases c with
    | go =>
      cases h
      exact Move.reset
    | _ => cases h
  | broadcast flag ok =>
    cases c with
    | go =>
      cases h
      exact Move.broadcast
    | _ => cases h
  | returned flag =>
    cases c with
    | go =>
      cases h
      exact Move.back (Or.inl rfl)
    | _ => cases h
  | rethrown flag =>
    cases c with
    | go =>
      cases h
      exact Move.back (Or.inr rfl)
    | _ => cases h

/-- What a step does to the flag `g`. -/
theorem Move.effect (h : Move m p m' next n) (g : F) :
    Effect g p next.point (m.state g) (m.completed g) (m'.state g) (m'.completed g) := by
  cases h with
  | enter => exact Effect.keep rfl rfl
  | seen hmode =>
    rcases hmode with rfl | rfl
    · exact Effect.keep rfl rfl
    · exact Effect.keep rfl rfl
  | wait => exact Effect.keep rfl rfl
  | @begin stack flag hzero =>
    by_cases hg : flag = g
    · subst hg
      simp only [Flags.store, Next.point, Function.update_self, hzero]
      refine Effect.begin ?_ rfl
      rw [running_cons, if_pos rfl]
      rfl
    · simp only [Flags.store, Next.point, Function.update_of_ne (Ne.symm hg)]
      refine Effect.keep ?_ rfl
      rw [running_cons, if_neg hg]
      rfl
  | @returns stack flag =>
    by_cases hg : flag = g
    · subst hg
      simp only [Next.point, Function.update_self]
      refine Effect.complete ?_ rfl ?_
      · rw [running_cons, running_finished]
      · rw [finishing_finished, if_pos rfl]
    · simp only [Next.point, Function.update_of_ne (Ne.symm hg)]
      refine Effect.keep ?_ ?_
      · rw [running_cons, running_finished]
      · rw [finishing_finished, if_neg hg]
        rfl
  | throws =>
    refine Effect.keep ?_ rfl
    rw [Next.point, running_cons, running_threw]
  | @finish stack flag =>
    by_cases hg : flag = g
    · subst hg
      simp only [Flags.store, Next.point, Function.update_self]
      refine Effect.finish ?_ ?_ rfl
      · rw [running_finished, if_pos rfl]
        rfl
      · rw [finishing_finished, if_pos rfl]
    · simp only [Flags.store, Next.point, Function.update_of_ne (Ne.symm hg)]
      refine Effect.keep ?_ ?_
      · rw [running_finished, if_neg hg]
        rfl
      · rw [finishing_finished, if_neg hg]
        rfl
  | @reset stack flag =>
    by_cases hg : flag = g
    · subst hg
      simp only [Flags.store, Next.point, Function.update_self]
      refine Effect.reset ?_ rfl
      rw [running_threw, if_pos rfl]
      rfl
    · simp only [Flags.store, Next.point, Function.update_of_ne (Ne.symm hg)]
      refine Effect.keep ?_ rfl
      rw [running_threw, if_neg hg]
      rfl
  | @broadcast stack flag ok =>
    cases ok with
    | true => exact Effect.keep rfl rfl
    | false => exact Effect.keep rfl rfl
  | back hmode =>
    rcases hmode with rfl | rfl
    · exact Effect.keep rfl rfl
    · exact Effect.keep rfl rfl

/-! ## The invariant -/

namespace Point

/-- The thread knows that the flag is stored: it has stored it, or seen it so. -/
def Knows (flag : F) (p : Point F) : Prop :=
  p.mode = .returned flag ∨ p.mode = .broadcast flag true

/-- The thread waits for the flag. -/
def Waits (p : Point F) (m : Flags F) : Prop := ∃ flag, p.mode = .call flag ∧ m.state flag = 1

def Broadcasts (p : Point F) : Prop := ∃ flag ok, p.mode = .broadcast flag ok

end Point

variable {ι : Type} [Fintype ι]

/-- The flag is 1 while its function runs, or the thread that ran it has not
stored the flag yet, and its last value says that the function has returned. -/
structure Accounted (flag : F) (v : BitVec 64) (k : ℕ) (points : ι → Point F) : Prop where
  value : v = 0 ∨ v = 1 ∨ v = done
  running : total (Point.running flag) points = if v = 1 then 1 else 0
  completed : k = total (Point.finishing flag) points + if v = done then 1 else 0

variable {points : ι → Point F} {t : ι}

theorem finishing_le_running (p : Point F) : p.finishing flag ≤ p.running flag := by
  rw [Point.finishing, Point.running]
  split_ifs with hfinished hstored
  · exact Nat.le_add_left 1 _
  · exact absurd (Or.inl hfinished) hstored
  · exact Nat.zero_le _
  · exact Nat.zero_le _

theorem Accounted.of_running (h : Accounted flag v k points)
    (ht : 0 < (points t).running flag) : v = 1 := by
  by_contra hv
  have hle := le_total (Point.running flag) points t
  rw [h.running, if_neg hv] at hle
  exact absurd ht (Nat.not_lt.mpr hle)

variable [DecidableEq ι]

theorem Accounted.effect (h : Accounted flag v k points) (ht : points t = p)
    (heffect : Effect flag p p' v k v' k') :
    Accounted flag v' k' (Function.update points t p') := by
  have hrunning := total_update (Point.running flag) points t p'
  have hfinishing := total_update (Point.finishing flag) points t p'
  rw [ht, h.running] at hrunning
  rw [ht] at hfinishing
  have hcompleted := h.completed
  cases heffect with
  | keep hsame hsame' =>
    refine ⟨h.value, ?_, ?_⟩
    · omega
    · omega
  | begin hmore hsame =>
    rw [if_neg (by decide)] at hrunning hcompleted
    refine ⟨Or.inr (Or.inl rfl), ?_, ?_⟩
    · rw [if_pos rfl]
      omega
    · rw [if_neg (by decide)]
      omega
  | complete hsame hp hp' =>
    refine ⟨h.value, ?_, ?_⟩
    · omega
    · omega
  | finish hless hp hp' =>
    obtain rfl : v = 1 := h.of_running (by rw [ht, hless]; exact Nat.succ_pos _)
    rw [if_pos rfl] at hrunning
    rw [if_neg (by decide)] at hcompleted
    refine ⟨Or.inr (Or.inr rfl), ?_, ?_⟩
    · rw [if_neg (by decide)]
      omega
    · rw [if_pos rfl]
      omega
  | reset hless hsame =>
    obtain rfl : v = 1 := h.of_running (by rw [ht, hless]; exact Nat.succ_pos _)
    rw [if_pos rfl] at hrunning
    rw [if_neg (by decide)] at hcompleted
    refine ⟨Or.inl rfl, ?_, ?_⟩
    · rw [if_neg (by decide)]
      omega
    · rw [if_neg (by decide)]
      omega

omit [DecidableEq ι] in
/-- The last value stays. -/
theorem Accounted.done_stable (h : Accounted flag v k points) (ht : points t = p)
    (heffect : Effect flag p p' v k v' k') (hv : v = done) : v' = done ∧ k' = k := by
  have hidle : p.running flag = 0 := by
    by_contra hsome
    have hone := h.of_running (t := t) (by rw [ht]; exact Nat.pos_of_ne_zero hsome)
    exact absurd (hv.symm.trans hone) (by decide)
  cases heffect with
  | keep => exact ⟨hv, rfl⟩
  | begin => exact absurd hv (by decide)
  | complete hsame _ hp' =>
    have hle : p'.finishing flag ≤ p'.running flag := finishing_le_running p'
    omega
  | finish hless => omega
  | reset hless => omega

/-- Who goes on as if the function had returned, knows that it has. -/
theorem Move.knows (h : Move m p m' next n)
    (hvalue : m.state flag = 0 ∨ m.state flag = 1 ∨ m.state flag = done)
    (hknows : next.point.Knows flag) : p.Knows flag ∨ m'.state flag = done := by
  cases h with
  | seen _ hone hzero =>
    rcases hknows with heq | heq
    · cases heq
      exact Or.inr ((hvalue.resolve_left hzero).resolve_left hone)
    · cases heq
  | finish =>
    rcases hknows with heq | heq
    · cases heq
    · cases heq
      refine Or.inr ?_
      simp only [Flags.store, Function.update_self]
  | @broadcast stack flag ok =>
    cases ok with
    | true =>
      rcases hknows with heq | heq
      · cases heq
        exact Or.inl (Or.inr rfl)
      · cases heq
    | false => rcases hknows with heq | heq <;> cases heq
  | _ => rcases hknows with heq | heq <;> cases heq

/-- A step that takes a flag from 1 to another value goes on to a broadcast. -/
theorem Move.relay (h : Move m p m' next n) :
    (∃ p', next = .goto p' ∧ p'.Broadcasts) ∨ n = some (.all ()) ∨
      ¬p.Broadcasts ∧ ∀ p' : Point F, p'.Waits m → p'.Waits m' := by
  have hkeep {stack : List F} {mode : Mode F} {m' : Flags F}
      (hmode : ∀ flag ok, mode ≠ .broadcast flag ok)
      (hstate : ∀ flag, m.state flag = 1 → m'.state flag = 1) :
      ¬(⟨stack, mode⟩ : Point F).Broadcasts ∧ ∀ p' : Point F, p'.Waits m → p'.Waits m' := by
    refine ⟨?_, ?_⟩
    · rintro ⟨flag, ok, heq⟩
      exact hmode flag ok heq
    · rintro p' ⟨flag, hp', hone⟩
      exact ⟨flag, hp', hstate flag hone⟩
  cases h with
  | finish => exact Or.inl ⟨_, rfl, _, _, rfl⟩
  | reset => exact Or.inl ⟨_, rfl, _, _, rfl⟩
  | broadcast => exact Or.inr (Or.inl rfl)
  | @begin stack flag hzero =>
    refine Or.inr (Or.inr (hkeep (fun _ _ heq => by cases heq) fun g hone => ?_))
    by_cases hg : g = flag
    · rw [hg, hzero] at hone
      exact absurd hone (by decide)
    · exact (Function.update_of_ne hg _ m.state).trans hone
  | seen hmode =>
    refine Or.inr (Or.inr (hkeep (fun _ _ heq => ?_) fun _ hone => hone))
    rcases hmode with rfl | rfl <;> cases heq
  | back hmode =>
    refine Or.inr (Or.inr (hkeep (fun _ _ heq => ?_) fun _ hone => hone))
    rcases hmode with rfl | rfl <;> cases heq
  | _ => exact Or.inr (Or.inr (hkeep (fun _ _ heq => by cases heq) fun _ hone => hone))

/-! ## Runs -/

def Counted (m : Flags F) (points : ι → Point F) : Prop :=
  ∀ flag, Accounted flag (m.state flag) (m.completed flag) points ∧
    ∀ t, (points t).Knows flag → m.state flag = done

theorem Counted.move (h : Counted m points) (ht : points t = p) (hmove : Move m p m' next n) :
    Counted m' (Function.update points t next.point) := by
  intro flag
  obtain ⟨haccounted, hknows⟩ := h flag
  have heffect := hmove.effect flag
  refine ⟨haccounted.effect ht heffect, fun u hu => ?_⟩
  have hstable (hv : m.state flag = done) : m'.state flag = done :=
    (haccounted.done_stable ht heffect hv).1
  by_cases hut : u = t
  · rw [hut, Function.update_self] at hu
    rcases hmove.knows haccounted.value hu with hbefore | hafter
    · exact hstable (hknows t (ht ▸ hbefore))
    · exact hafter
  · rw [Function.update_of_ne hut] at hu
    exact hstable (hknows u hu)

abbrev Reachable (s : Monitor.State ι (Flags F) Unit (Point F)) : Prop :=
  ((program ι F).system (start ι F)).Reachable (fun _ _ => True) s

variable {s s' : Monitor.State ι (Flags F) Unit (Point F)}

theorem reachable_counted (h : Reachable s) : Counted s.shared s.points := by
  refine Program.reachable_invariant (I := Counted) ?_ ?_ ?_ h
  · intro flag
    have hzero : (start ι F).shared.state flag = 0 := rfl
    refine ⟨⟨Or.inl rfl, ?_, ?_⟩, fun t hknows => ?_⟩
    · rw [hzero, if_neg (by decide)]
      exact total_const_zero _ _ fun _ => rfl
    · rw [hzero, if_neg (by decide), total_const_zero]
      · rfl
      · exact fun _ => rfl
    · rcases hknows with heq | heq <;> cases heq
  · intro s t c woken p σ' next n hI _ hplace hblock
    exact hI.move (State.points_of_ready hplace) (block_move hblock)
  · intro s t p' _ htimeout
    cases htimeout

theorem relayed_of_asleep (h : Reachable s) (ht : s.place t = .asleep () p) :
    Program.Relayed Point.Waits Point.Broadcasts s p := by
  refine Program.reachable_relayed (fun t p => ?_) ?_ ?_ ?_ h ht
  · intro heq
    cases heq
  · intro s t c p σ' p' n hreach hplace hblock
    have hmove : Move s.shared p σ' (.wait () p') n := block_move hblock
    cases hmove with
    | wait hone => exact ⟨_, rfl, hone⟩
  · intro s t c p σ' next n hreach hplace hblock
    have hmove : Move s.shared p σ' next n := block_move hblock
    rcases hmove.relay with hnext | hall | ⟨hp, hkeep⟩
    · exact Or.inl hnext
    · exact Or.inr (Or.inl hall)
    · exact Or.inr (Or.inr (Or.inr (Or.inr ⟨hp, fun _ p' _ _ hwaits => hkeep p' hwaits⟩)))
  · intro p p' htimeout
    cases htimeout

/-- Once the flag has its last value nothing changes it. -/
theorem done_stable (h : Reachable s) {l : Label ι (Choice F)}
    (hstep : (program ι F).step s l = some s') (hdone : s.shared.state flag = done) :
    s'.shared.state flag = done ∧ s'.shared.completed flag = s.shared.completed flag := by
  obtain ⟨t, c, woken, p, next, n, -, hplace, hblock, -, -⟩ | ⟨hshared, -, -⟩ :=
    Program.step_cases hstep
  · exact (reachable_counted h flag).1.done_stable (State.points_of_ready hplace)
      ((block_move hblock).effect flag) hdone
  · rw [hshared]
    exact ⟨hdone, rfl⟩

/-- At any time the function of a flag runs at most once, also counting calls
within it; it has returned at most once, and then it is not run again; who comes
back from `call_once` without an exception, comes after it has returned.  A thread
that is asleep waits for a function that runs, or another is about to wake it. -/
theorem call_once (h : Reachable s) (flag : F) :
    total (Point.running flag) s.points = (if s.shared.state flag = 1 then 1 else 0) ∧
      s.shared.completed flag ≤ 1 ∧
      (s.shared.state flag = done → s.shared.completed flag = 1 ∧ ∀ l s',
        (program ι F).step s l = some s' → s'.shared.state flag = done) ∧
      (∀ t, (s.points t).mode = .returned flag → s.shared.state flag = done) ∧
      ∀ t p, s.place t = .asleep () p → (∃ g u, p.mode = .call g ∧ 0 < (s.points u).running g) ∨
        ∃ u p', s.place u = .ready p' ∧ p'.Broadcasts := by
  obtain ⟨haccounted, hknows⟩ := reachable_counted h flag
  have hfinishing : total (Point.finishing flag) s.points ≤ total (Point.running flag) s.points :=
    Finset.sum_le_sum fun t _ => finishing_le_running (s.points t)
  have hrunning := haccounted.running
  have hcompleted := haccounted.completed
  refine ⟨hrunning, ?_, fun hdone => ⟨?_, fun l s' hstep => (done_stable h hstep hdone).1⟩,
    fun t ht => hknows t (Or.inl ht), fun t p ht => ?_⟩
  · by_cases hdone : s.shared.state flag = done
    · rw [if_neg (by rw [hdone]; decide)] at hrunning
      rw [if_pos hdone] at hcompleted
      omega
    · rw [if_neg hdone] at hcompleted
      have hone : (if s.shared.state flag = 1 then 1 else 0) ≤ 1 := by split_ifs <;> decide
      omega
  · rw [if_neg (by rw [hdone]; decide)] at hrunning
    rw [if_pos hdone] at hcompleted
    omega
  · refine (relayed_of_asleep h ht).imp ?_ id
    rintro ⟨g, hp, hone⟩
    have hrunning := (reachable_counted h g).1.running
    rw [if_pos hone] at hrunning
    by_contra hnone
    rw [total_const_zero] at hrunning
    · exact absurd hrunning (by decide)
    · exact fun u => Nat.eq_zero_of_not_pos fun hpos => hnone ⟨g, u, hp, hpos⟩

/-- The first call throws, and has not yet told the second. -/
theorem call_once_two :
    ∃ s : Monitor.State (Fin 2) (Flags Unit) Unit (Point Unit),
      s.place 1 = .asleep () ⟨[], .call ()⟩ ∧ s.shared.state () = 0 ∧
        s.shared.completed () ≤ 1 ∧ ∃ u p, s.place u = .ready p ∧ p.Broadcasts := by
  have hexec : ∃ s, ((program (Fin 2) Unit).system (start (Fin 2) Unit)).exec (fun _ _ => True)
      (start (Fin 2) Unit) [.run 0 (.callOnce ()) 0, .run 0 .go 0, .run 1 (.callOnce ()) 0,
        .run 1 .go 0, .run 0 .throws 0, .run 0 .go 0] = some s ∧
      s.place 1 = .asleep () ⟨[], .call ()⟩ ∧ s.shared.state () = 0 ∧
      ∀ u, (s.points u).running () = 0 :=
    ⟨_, rfl, by decide, by decide, by decide⟩
  obtain ⟨s, hs, hasleep, hzero, hidle⟩ := hexec
  have hall := call_once (System.reachable_of_exec rfl hs) ()
  refine ⟨s, hasleep, hzero, hall.2.1, ?_⟩
  rcases hall.2.2.2.2 1 _ hasleep with ⟨⟨⟩, u, -, hpos⟩ | hbroadcast
  · rw [hidle] at hpos
    exact absurd hpos (by decide)
  · exact hbroadcast

end Libhipcxx.Mutex.CallOnce
