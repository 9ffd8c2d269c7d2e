import Libhipcxx.Chrono.DurationTime
import Libhipcxx.Semaphore.Atomic
import Libhipcxx.Wait.Polling
import Mathlib.Data.Int.ConditionallyCompleteOrder
import Mathlib.Order.Monotone.Basic

/-!
# Timed acquisition

A call of `try_acquire_for` or `try_acquire_until` on either atomic semaphore,
one step after the other.  The other threads are an environment: it gives the
value that each atomic operation finds in the counter, and says which weak
compare-exchanges fail spuriously.  A clock gives the time of each step.

The functions pass a relative time on in nanoseconds.  What the argument
denotes and what arrives may be different, where a conversion wraps around, or
nothing may arrive, where a signed operation overflows.
-/

namespace Libhipcxx.Semaphore

open Chrono (Duration DurationType Rep commonType conversion durationCast
  nanoseconds)
open Rational (Failure Ratio)
open Base
open Wait (pollExpired pollExpired_iff pollCount pollCount_min pollingCount)

/-! ## Program points of the poll loop -/

/-- The beginning of the poll loop, and of every poll. -/
def General.isPoll : General.Pc → Bool
  | .load .poll => true
  | _ => false

/-- The end of a poll that returned `false`. -/
def General.isTest : General.Pc → Bool
  | .pollTest => true
  | _ => false

def MaxOne.isPoll : MaxOne.Pc → Bool
  | .exchange .poll => true
  | _ => false

def MaxOne.isTest : MaxOne.Pc → Bool
  | .pollTest => true
  | _ => false

namespace Template

def isPoll : (b : Template) → b.Pc → Bool
  | .general => General.isPoll
  | .maxOne => MaxOne.isPoll

def isTest : (b : Template) → b.Pc → Bool
  | .general => General.isTest
  | .maxOne => MaxOne.isTest

end Template

/-! ## A timed call -/

/-- The clock under `high_resolution_clock`: the one of the host, which counts
nanoseconds, or the counter of a device at 25 MHz or 100 MHz. -/
inductive ClockRate where
  | host
  | tsc25
  | tsc100

/-- `_LIBCUDACXX_HIP_TSC_NANOSECONDS_PER_CYCLE`. -/
def ClockRate.nanosecondsPerCycle : ClockRate → ℤ
  | .host => 1
  | .tsc25 => 40
  | .tsc100 => 10

/-- What the rest of the program does to a call: the time of each step in
nanoseconds, the counter that an atomic operation finds, and whether a weak
compare-exchange fails without reason. -/
structure Environment where
  clock : ℕ → ℤ
  counter : ℕ → ℤ
  spurious : ℕ → Bool

/-- The clock counts cycles, does not go back and is unbounded, and the counter
stays between zero and `max()`. -/
structure Environment.Valid (b : Template) (rate : ClockRate)
    (env : Environment) : Prop where
  cycles : ∀ n, rate.nanosecondsPerCycle ∣ env.clock n
  mono : Monotone env.clock
  unbounded : ∀ time, ∃ n, time < env.clock n
  nonneg : ∀ n, 0 ≤ env.counter n
  le_max : ∀ n, env.counter n ≤ b.base.max

/-- A call: its program point, `__start` once it has been read, `__count`, and
the units that it has taken from the counter. -/
structure Timed (b : Template) where
  pc : b.Pc
  start : Option ℤ
  count : ℕ
  taken : ℤ

namespace Timed

variable {b : Template}

/-- The decision of the poll loop at the end of a poll. -/
def expired (s : Timed b) (max now : ℤ) : Bool :=
  match s.start with
  | some start => pollExpired s.count max (now - start)
  | none => false

/-- What the next step leaves open is settled by the clock at the end of a
poll, and by the environment elsewhere. -/
def choice (s : Timed b) (env : Environment) (max : ℤ) (n : ℕ) : Choice :=
  if b.isTest s.pc then
    if s.expired max (env.clock n) then .timeExpired else .ordinary
  else if env.spurious n then .spuriousFailure else .ordinary

/-- The step with number `n`: the poll loop begins by reading the clock. -/
def step (s : Timed b) (env : Environment) (max : ℤ) (n : ℕ) : Timed b :=
  if b.isPoll s.pc = true ∧ s.start = none then
    { s with start := some (env.clock n) }
  else
    match b.base.next s.pc (s.choice env max n) (env.counter n) with
    | some (counter, pc) =>
        { s with
          pc := pc
          count := if b.isTest s.pc then pollCount s.count else s.count
          taken := s.taken + (env.counter n - counter) }
    | none => s

/-- The call begins with `try_acquire`. -/
def enter (b : Template) : Timed b := ⟨b.base.enter .timedAcquire, none, 0, 0⟩

/-- The state of the call before the step with number `n`. -/
def run (b : Template) (env : Environment) (max : ℤ) : ℕ → Timed b
  | 0 => enter b
  | n + 1 => (run b env max n).step env max n

/-- The call has returned. -/
def Returned (s : Timed b) (result : Bool) : Prop :=
  b.base.status s.pc = .returned .timedAcquire result

end Timed

/-! ## Timeouts -/

/-- A relative time: what it denotes, in nanoseconds, and the argument that
`__acquire_slow_timed` is given for it. -/
structure Timeout where
  time : ℚ
  argument : Option ℤ

/-- The implicit conversion to `chrono::nanoseconds`, by a factor that the
compiler has found. -/
def toNanoseconds {T : DurationType} (factor : Ratio) (d : Duration T) :
    Option ℤ :=
  (durationCast factor nanoseconds d).map fun d => d.count

/-- `try_acquire_for`. -/
def timeoutFor {T : DurationType} (relTime : Duration T) :
    Except Failure Timeout := do
  let factor ← conversion T nanoseconds
  return ⟨relTime.time * 10 ^ 9, toNanoseconds factor relTime⟩

/-- `try_acquire_until`, with the reading of the clock it subtracts. -/
def timeoutUntil {T U : DurationType} (absTime : Duration T) (now : Duration U) :
    Except Failure Timeout := do
  let difference ← Chrono.sub absTime now
  let common ← commonType T U
  let factor ← conversion common nanoseconds
  return ⟨(absTime.time - now.time) * 10 ^ 9,
    difference.bind fun ⟨_, d⟩ => toNanoseconds factor d⟩

/-! ## The poll loop on an empty counter -/

namespace Template

variable {b : Template} {pc pc' : b.Pc} {choice : Choice} {count count' : ℤ}

/-- The end of a poll is not its beginning. -/
theorem isPoll_of_isTest (h : b.isTest pc = true) : b.isPoll pc = false := by
  cases b with
  | general => cases pc <;> first | rfl | cases h
  | maxOne => cases pc <;> first | rfl | cases h

theorem isTest_of_isPoll (h : b.isPoll pc = true) : b.isTest pc = false := by
  by_contra htest
  rw [isPoll_of_isTest (Bool.eq_true_of_not_eq_false htest)] at h
  cases h

/-- `try_acquire` fails, and polling begins. -/
theorem next_enter (b : Template) (choice : Choice) :
    b.isPoll (b.base.enter .timedAcquire) = false ∧
      b.isTest (b.base.enter .timedAcquire) = false ∧
      ∃ pc, b.base.next (b.base.enter .timedAcquire) choice 0 = some (0, pc) ∧
        b.isPoll pc = true := by
  cases b with
  | general => exact ⟨rfl, rfl, _, rfl, rfl⟩
  | maxOne => exact ⟨rfl, rfl, _, rfl, rfl⟩

/-- A poll finds nothing. -/
theorem next_poll (choice : Choice) (h : b.isPoll pc = true) :
    ∃ pc', b.base.next pc choice 0 = some (0, pc') ∧ b.isTest pc' = true := by
  cases b with
  | general =>
      cases pc with
      | load site =>
          cases site with
          | fast call => cases h
          | poll => exact ⟨_, rfl, rfl⟩
      | _ => cases h
  | maxOne =>
      cases pc with
      | exchange site =>
          cases site with
          | fast call => cases h
          | poll => exact ⟨_, rfl, rfl⟩
      | _ => cases h

/-- The end of a poll leads out of the loop or back to its beginning. -/
theorem next_test (choice : Choice) (count : ℤ) (h : b.isTest pc = true) :
    ∃ pc', b.base.next pc choice count = some (count, pc') ∧
      (choice = .timeExpired →
        b.base.status pc' = .returned .timedAcquire false) ∧
      (choice ≠ .timeExpired → b.isPoll pc' = true) := by
  cases b with
  | general =>
      cases pc with
      | pollTest =>
          refine ⟨_, rfl, ?_, ?_⟩
          · rintro rfl
            rfl
          · intro hchoice
            rw [if_neg hchoice]
            rfl
      | _ => cases h
  | maxOne =>
      cases pc with
      | pollTest =>
          refine ⟨_, rfl, ?_, ?_⟩
          · rintro rfl
            rfl
          · intro hchoice
            rw [if_neg hchoice]
            rfl
      | _ => cases h

end Template

theorem General.failed_ne_false (site : Site) :
    status (failed site) ≠ .returned .timedAcquire false := by
  rcases site with (_ | _ | _) | _
  all_goals
    intro h
    cases h

theorem General.fetchSubIf_ne_false (site : Site) (old : ℤ) :
    status (fetchSubIf site old) ≠ .returned .timedAcquire false := by
  unfold fetchSubIf
  split
  · exact failed_ne_false site
  · intro h
    cases site with
    | fast call => cases h
    | poll => cases h

theorem General.compareExchangeWeak_ne_false (site : Site) (old : NonZero)
    (choice : Choice) (count : ℤ) :
    status (compareExchangeWeak site old choice count).2 ≠
      .returned .timedAcquire false := by
  unfold compareExchangeWeak
  split
  · simp [status]
  · unfold fetchSubIfSlow
    split
    · exact failed_ne_false site
    · intro h
      cases h

theorem General.isTest_of_false {pc pc' : Pc} {choice : Choice}
    {count count' : ℤ} (h : next pc choice count = some (count', pc'))
    (hfalse : status pc' = .returned .timedAcquire false) :
    isTest pc = true ∧ choice = .timeExpired := by
  cases pc with
  | idle => cases h
  | load site =>
      cases h
      exact absurd hfalse (fetchSubIf_ne_false site count)
  | compareExchange call old =>
      have hcas : (compareExchangeWeak (.fast call) old choice count).2 = pc' :=
        congrArg Prod.snd (Option.some.inj h)
      exact absurd (hcas ▸ hfalse) (compareExchangeWeak_ne_false _ old choice count)
  | compareExchangeSlow site old =>
      have hcas : (compareExchangeWeak site old choice count).2 = pc' :=
        congrArg Prod.snd (Option.some.inj h)
      exact absurd (hcas ▸ hfalse) (compareExchangeWeak_ne_false _ old choice count)
  | waitLoad =>
      cases h
      split at hfalse <;> cases hfalse
  | wait =>
      cases h
      split at hfalse <;> cases hfalse
  | pollTest =>
      cases h
      split at hfalse
      · rename_i hchoice
        exact ⟨rfl, hchoice⟩
      · cases hfalse
  | done call result => cases h

theorem MaxOne.failed_ne_false (site : Site) :
    status (failed site) ≠ .returned .timedAcquire false := by
  rcases site with (_ | _ | _) | _
  all_goals
    intro h
    cases h

theorem MaxOne.isTest_of_false {pc pc' : Pc} {choice : Choice}
    {count count' : ℤ} (h : next pc choice count = some (count', pc'))
    (hfalse : status pc' = .returned .timedAcquire false) :
    isTest pc = true ∧ choice = .timeExpired := by
  cases pc with
  | idle => cases h
  | exchange site =>
      cases h
      split at hfalse
      · simp [status] at hfalse
      · exact absurd hfalse (failed_ne_false site)
  | wait =>
      cases h
      split at hfalse <;> cases hfalse
  | pollTest =>
      cases h
      split at hfalse
      · rename_i hchoice
        exact ⟨rfl, hchoice⟩
      · cases hfalse
  | done call result => cases h

/-- A timed call returns `false` only at the end of a poll, once the time has
run out. -/
theorem Template.isTest_of_false {b : Template} {pc pc' : b.Pc}
    {choice : Choice} {count count' : ℤ}
    (h : b.base.next pc choice count = some (count', pc'))
    (hfalse : b.base.status pc' = .returned .timedAcquire false) :
    b.isTest pc = true ∧ choice = .timeExpired := by
  cases b with
  | general => exact General.isTest_of_false h hfalse
  | maxOne => exact MaxOne.isTest_of_false h hfalse

/-! ## What holds of every call -/

namespace Timed

variable {b : Template} {rate : ClockRate} {env : Environment} {max : ℤ}
  {s : Timed b} {n : ℕ}

/-- A step reads the clock at the beginning of the loop, or is a step of the
base, or does nothing after the call. -/
theorem step_cases (s : Timed b) (env : Environment) (max : ℤ) (n : ℕ) :
    (s.start = none ∧
      s.step env max n = { s with start := some (env.clock n) }) ∨
    (∃ counter pc,
      b.base.next s.pc (s.choice env max n) (env.counter n) =
        some (counter, pc) ∧
      s.step env max n =
        { s with
          pc := pc
          count := if b.isTest s.pc then pollCount s.count else s.count
          taken := s.taken + (env.counter n - counter) }) ∨
    s.step env max n = s := by
  by_cases hbegin : b.isPoll s.pc = true ∧ s.start = none
  · left
    exact ⟨hbegin.2, by rw [step, if_pos hbegin]⟩
  · right
    rw [step, if_neg hbegin]
    cases hnext : b.base.next s.pc (s.choice env max n) (env.counter n) with
    | none => exact Or.inr rfl
    | some next => exact Or.inl ⟨next.1, next.2, rfl, rfl⟩

/-- A call that has succeeded has taken one unit, and any other none. -/
theorem run_takenBy (henv : env.Valid b rate) (max : ℤ) (n : ℕ) :
    TakenBy (b.base.status (run b env max n).pc) (run b env max n).taken := by
  induction n with
  | zero =>
      rw [run, enter, b.lawful.status_enter]
      rfl
  | succ n ih =>
      rw [run]
      obtain ⟨-, hstep⟩ | ⟨counter, pc, hnext, hstep⟩ | hstep :=
        step_cases (run b env max n) env max n
      · rw [hstep]
        exact ih
      · obtain ⟨call, hrunning, -⟩ := b.lawful.next_running hnext
        rw [hrunning] at ih
        have htaken : (run b env max n).taken = 0 := ih
        have heffect := b.lawful.next_effect (henv.nonneg n) (henv.le_max n) hnext
        rw [hstep, htaken]
        exact heffect.takenBy
      · rw [hstep]
        exact ih

/-- `__start` is the time of an earlier step. -/
theorem run_start {start : ℤ} (h : (run b env max n).start = some start) :
    ∃ i, i < n ∧ start = env.clock i := by
  induction n with
  | zero => cases h
  | succ n ih =>
      rw [run] at h
      obtain ⟨-, hstep⟩ | ⟨counter, pc, hnext, hstep⟩ | hstep :=
        step_cases (run b env max n) env max n
      · rw [hstep] at h
        exact ⟨n, n.lt_succ_self, (Option.some.inj h).symm⟩
      all_goals
        rw [hstep] at h
        obtain ⟨i, hi, hstart⟩ := ih h
        exact ⟨i, hi.trans n.lt_succ_self, hstart⟩

/-- A step after which the call has returned `false`, and before which it had
not, sees that more time has passed than the maximum. -/
theorem expired_of_returned (hbefore : ¬ s.Returned false)
    (hafter : (s.step env max n).Returned false) :
    ∃ start, s.start = some start ∧ max ≠ 0 ∧ max < env.clock n - start := by
  obtain ⟨-, hstep⟩ | ⟨counter, pc, hnext, hstep⟩ | hstep :=
    step_cases s env max n
  · rw [hstep] at hafter
    exact absurd hafter hbefore
  · rw [hstep] at hafter
    obtain ⟨htest, hchoice⟩ := Template.isTest_of_false hnext hafter
    have hexpired : s.expired max (env.clock n) = true := by
      rw [choice, if_pos htest] at hchoice
      by_contra hnot
      rw [if_neg hnot] at hchoice
      cases hchoice
    cases hstart : s.start with
    | none =>
        rw [expired, hstart] at hexpired
        cases hexpired
    | some start =>
        rw [expired, hstart] at hexpired
        exact ⟨start, rfl, (pollExpired_iff.mp hexpired).2⟩
  · rw [hstep] at hafter
    exact absurd hafter hbefore

/-- `__start` is read once. -/
theorem step_start {start : ℤ} (h : s.start = some start) :
    (s.step env max n).start = some start := by
  obtain ⟨hnone, -⟩ | ⟨counter, pc, hnext, hstep⟩ | hstep :=
    step_cases s env max n
  · rw [h] at hnone
    cases hnone
  all_goals
    rw [hstep]
    exact h

/-- A call that has returned `false` had a maximum, and more time than that has
passed since it began to poll. -/
theorem run_false (henv : env.Valid b rate)
    (h : (run b env max (n + 1)).Returned false) :
    ∃ start, (run b env max n).start = some start ∧ max ≠ 0 ∧
      max < env.clock n - start := by
  induction n with
  | zero =>
      refine expired_of_returned ?_ h
      rw [Returned, run, enter, b.lawful.status_enter]
      intro hreturned
      cases hreturned
  | succ n ih =>
      by_cases hbefore : (run b env max (n + 1)).Returned false
      · obtain ⟨start, hstart, hne, hlt⟩ := ih hbefore
        have hmono := henv.mono n.le_succ
        exact ⟨start, step_start hstart, hne,
          hlt.trans_le (sub_le_sub_right hmono start)⟩
      · exact expired_of_returned hbefore h

/-- Without a maximum the call does not return `false`. -/
theorem not_returned_zero (henv : env.Valid b rate) (n : ℕ) :
    ¬(run b env 0 n).Returned false := by
  intro h
  cases n with
  | zero =>
      rw [Returned, run, enter, b.lawful.status_enter] at h
      cases h
  | succ n =>
      obtain ⟨start, -, hne, -⟩ := run_false henv h
      exact hne rfl

/-! ## A call that finds the counter empty -/

/-- Before a poll, after `count` of them were counted. -/
structure AtPoll (s : Timed b) (start : ℤ) (count : ℕ) : Prop where
  isPoll : b.isPoll s.pc = true
  start_eq : s.start = some start
  count_eq : s.count = count

/-- After a poll that returned `false`. -/
structure AtTest (s : Timed b) (start : ℤ) (count : ℕ) : Prop where
  isTest : b.isTest s.pc = true
  start_eq : s.start = some start
  count_eq : s.count = count

variable {start : ℤ} {count : ℕ}

theorem AtPoll.step (h : AtPoll s start count) (hzero : env.counter n = 0) :
    AtTest (s.step env max n) start count := by
  obtain ⟨pc, hnext, htest⟩ :=
    Template.next_poll (s.choice env max n) h.isPoll
  have hbegun : ¬(b.isPoll s.pc = true ∧ s.start = none) := by
    rw [h.start_eq]
    rintro ⟨-, hnone⟩
    cases hnone
  rw [Timed.step, if_neg hbegun, hzero, hnext]
  refine ⟨htest, h.start_eq, ?_⟩
  rw [Template.isTest_of_isPoll h.isPoll]
  exact h.count_eq

/-- The step at the end of a poll. -/
theorem AtTest.step_eq (h : AtTest s start count) (env : Environment)
    (max : ℤ) (n : ℕ) :
    ∃ pc taken, s.step env max n = ⟨pc, some start, pollCount count, taken⟩ ∧
      (pollExpired count max (env.clock n - start) = true →
        b.base.status pc = .returned .timedAcquire false) ∧
      (pollExpired count max (env.clock n - start) = false →
        b.isPoll pc = true) := by
  have hexpired : s.expired max (env.clock n) =
      pollExpired count max (env.clock n - start) := by
    rw [expired, h.start_eq, h.count_eq]
  obtain ⟨pc, hnext, hlate, hback⟩ :=
    Template.next_test (s.choice env max n) (env.counter n) h.isTest
  have hnot : ¬(b.isPoll s.pc = true ∧ s.start = none) := by
    rw [Template.isPoll_of_isTest h.isTest]
    rintro ⟨hpoll, -⟩
    cases hpoll
  refine ⟨pc, s.taken + (env.counter n - env.counter n), ?_, ?_, ?_⟩
  · rw [Timed.step, if_neg hnot, hnext]
    simp only [h.isTest, h.start_eq, h.count_eq, ↓reduceIte]
  · intro hexp
    apply hlate
    rw [choice, if_pos h.isTest, hexpired, if_pos hexp]
  · intro hexp
    apply hback
    rw [choice, if_pos h.isTest, hexpired, hexp]
    intro hchoice
    cases hchoice

theorem AtTest.step_back (h : AtTest s start count)
    (hearly : pollExpired count max (env.clock n - start) = false) :
    AtPoll (s.step env max n) start (pollCount count) := by
  obtain ⟨pc, taken, hstep, -, hback⟩ := h.step_eq env max n
  rw [hstep]
  exact ⟨hback hearly, rfl, rfl⟩

theorem AtTest.step_returned (h : AtTest s start count)
    (hlate : pollExpired count max (env.clock n - start) = true) :
    (s.step env max n).Returned false := by
  obtain ⟨pc, taken, hstep, hreturned, -⟩ := h.step_eq env max n
  rw [hstep]
  exact hreturned hlate

/-- Whether the poll with number `j` is the last one, where the counter stays
empty. -/
def LastPoll (env : Environment) (max : ℤ) (j : ℕ) : Prop :=
  pollExpired (min j pollingCount) max
    (env.clock (2 * j + 3) - env.clock 1) = true

/-- `try_acquire` takes the first step. -/
theorem step_enter (b : Template) (max : ℤ) (hzero : env.counter n = 0) :
    ∃ pc, (enter b).step env max n = ⟨pc, none, 0, 0⟩ ∧ b.isPoll pc = true := by
  obtain ⟨hpoll, htest, pc, hnext, hpc⟩ :=
    b.next_enter ((enter b).choice env max n)
  have hnot : ¬(b.isPoll (enter b).pc = true ∧ (enter b).start = none) := by
    rw [enter, hpoll]
    rintro ⟨h, -⟩
    cases h
  have hstep : b.base.next (enter b).pc ((enter b).choice env max n) 0 =
      some (0, pc) := hnext
  refine ⟨pc, ?_, hpc⟩
  rw [step, if_neg hnot, hzero, hstep]
  simp [enter, htest]

theorem lastPoll_iff {j : ℕ} :
    LastPoll env max j ↔
      pollingCount ≤ j ∧ max ≠ 0 ∧
        max < env.clock (2 * j + 3) - env.clock 1 := by
  rw [LastPoll, pollExpired_iff, le_min_iff, and_iff_left (le_refl _)]

/-- The polls take two steps each. -/
theorem run_atPoll (b : Template) {j : ℕ} (hzero : ∀ n, env.counter n = 0)
    (hbefore : ∀ i < j, ¬LastPoll env max i) :
    AtPoll (run b env max (2 * j + 2)) (env.clock 1) (min j pollingCount) := by
  induction j with
  | zero =>
      obtain ⟨pc, hfirst, hpc⟩ := step_enter b max (hzero 0)
      have hsecond : run b env max 2 = ⟨pc, some (env.clock 1), 0, 0⟩ := by
        rw [run, run, run, hfirst, step, if_pos ⟨hpc, rfl⟩]
      rw [hsecond]
      exact ⟨hpc, rfl, rfl⟩
  | succ j ih =>
      have hpoll := ih fun i hi => hbefore i (hi.trans j.lt_succ_self)
      have htest : AtTest (run b env max (2 * j + 3)) _ _ :=
        hpoll.step (hzero _)
      have hback := htest.step_back
        (Bool.eq_false_of_not_eq_true (hbefore j j.lt_succ_self))
      rw [pollCount_min] at hback
      exact hback

theorem run_lastPoll (b : Template) {j : ℕ} (hzero : ∀ n, env.counter n = 0)
    (hbefore : ∀ i < j, ¬LastPoll env max i) (hlast : LastPoll env max j) :
    (run b env max (2 * j + 4)).Returned false := by
  have htest : AtTest (run b env max (2 * j + 3)) _ _ :=
    (run_atPoll b hzero hbefore).step (hzero _)
  exact htest.step_returned hlast

end Timed

/-! ## What a timed acquisition promises -/

/-- A call with this maximum returns `false` where the counter stays empty, but
only once the given time has passed since it read the clock for the first
time; and it takes one unit if it returns `true` and none otherwise. -/
structure Keeps (b : Template) (rate : ClockRate) (time : ℚ) (max : ℤ) :
    Prop where
  returns : ∀ env, env.Valid b rate → (∀ n, env.counter n = 0) →
    ∃ n, (Timed.run b env max n).Returned false
  waits : ∀ env, env.Valid b rate →
    ∀ n, (Timed.run b env max (n + 1)).Returned false →
      ∃ start, (Timed.run b env max n).start = some start ∧
        env.clock 0 ≤ start ∧ time ≤ (env.clock n - start : ℤ)
  takes : ∀ env, env.Valid b rate →
    ∀ n result, (Timed.run b env max n).Returned result →
      (Timed.run b env max n).taken = if result then 1 else 0

/-- There is an argument, and the call keeps its promise with it. -/
def Meets (b : Template) (rate : ClockRate) (timeout : Timeout) : Prop :=
  ∃ max, timeout.argument = some max ∧ Keeps b rate timeout.time max

/-- The least number of whole cycles, in nanoseconds, that is greater. -/
def leastElapsed (rate : ClockRate) (max : ℤ) : ℤ :=
  rate.nanosecondsPerCycle * (max / rate.nanosecondsPerCycle + 1).toNat

/-- The argument is defined, is not the one that stands for no maximum, and is
not too small for the time. -/
def Timeout.Usable (rate : ClockRate) (timeout : Timeout) : Prop :=
  ∃ max, timeout.argument = some max ∧ max ≠ 0 ∧
    timeout.time ≤ leastElapsed rate max

theorem ClockRate.pos (rate : ClockRate) : 0 < rate.nanosecondsPerCycle := by
  cases rate <;> decide

theorem lt_leastElapsed (rate : ClockRate) (max : ℤ) :
    max < leastElapsed rate max := by
  have hpos := rate.pos
  have hlt := Int.lt_mul_ediv_self_add (x := max) hpos
  rw [leastElapsed]
  refine hlt.trans_le ?_
  rw [← mul_add_one]
  exact mul_le_mul_of_nonneg_left (Int.self_le_toNat _) hpos.le

theorem leastElapsed_le {rate : ClockRate} {max elapsed : ℤ}
    (hcycles : rate.nanosecondsPerCycle ∣ elapsed) (hnonneg : 0 ≤ elapsed)
    (hlt : max < elapsed) : leastElapsed rate max ≤ elapsed := by
  obtain ⟨cycles, rfl⟩ := hcycles
  have hpos := rate.pos
  rw [leastElapsed]
  refine mul_le_mul_of_nonneg_left ?_ hpos.le
  have hcycles : 0 ≤ cycles := by
    by_contra hneg
    exact absurd hnonneg (not_le.mpr (mul_neg_of_pos_of_neg hpos (not_le.mp hneg)))
  have hquotient : max / rate.nanosecondsPerCycle < cycles :=
    Int.ediv_lt_of_lt_mul hpos (by rwa [mul_comm] at hlt)
  omega

/-- The counter stays empty, and the clock stands still for the polls that are
counted. -/
def Environment.slow (rate : ClockRate) (cycles : ℕ) : Environment where
  clock n :=
    if n < 35 then 0 else rate.nanosecondsPerCycle * (cycles + (n - 35) : ℕ)
  counter _ := 0
  spurious _ := false

theorem Environment.slow_valid (b : Template) (rate : ClockRate) (cycles : ℕ) :
    (slow rate cycles).Valid b rate where
  cycles n := by
    simp only [slow]
    split
    · exact dvd_zero _
    · exact dvd_mul_right _ _
  mono := by
    refine monotone_nat_of_le_succ fun n => ?_
    have hpos := rate.pos
    simp only [slow]
    split
    · split
      · exact le_refl _
      · exact mul_nonneg hpos.le (Int.natCast_nonneg _)
    · rw [if_neg (by omega)]
      exact mul_le_mul_of_nonneg_left (by omega) hpos.le
  unbounded time := by
    refine ⟨35 + (time + 1).toNat, ?_⟩
    simp only [slow]
    rw [if_neg (by omega)]
    have hsteps : time < (cycles + (35 + (time + 1).toNat - 35) : ℕ) := by omega
    exact hsteps.trans_le
      (le_mul_of_one_le_left (Int.natCast_nonneg _) rate.pos)
  nonneg _ := le_refl _
  le_max _ := by
    change 0 ≤ b.base.max
    cases b <;> decide

variable {b : Template} {rate : ClockRate} {time : ℚ} {max : ℤ}

theorem Keeps.ne_zero (h : Keeps b rate time max) : max ≠ 0 := by
  rintro rfl
  have henv := Environment.slow_valid b rate 0
  obtain ⟨n, hn⟩ := h.returns _ henv fun _ => rfl
  exact Timed.not_returned_zero henv n hn

/-- On the slow clock the call returns at the first look at it. -/
theorem Keeps.time_le (h : Keeps b rate time max) :
    time ≤ leastElapsed rate max := by
  let cycles := (max / rate.nanosecondsPerCycle + 1).toNat
  let env := Environment.slow rate cycles
  have henv : env.Valid b rate := Environment.slow_valid b rate cycles
  have hend : env.clock 35 = leastElapsed rate max := rfl
  have hbefore : ∀ i < pollingCount, ¬Timed.LastPoll env max i := by
    intro i hi hlast
    exact absurd (Timed.lastPoll_iff.mp hlast).1 (Nat.not_le.mpr hi)
  have hlast : Timed.LastPoll env max pollingCount := by
    refine Timed.lastPoll_iff.mpr ⟨le_refl _, h.ne_zero, ?_⟩
    have hstart : env.clock 1 = 0 := rfl
    have hlook : env.clock (2 * pollingCount + 3) = leastElapsed rate max := hend
    rw [hlook, hstart, sub_zero]
    exact lt_leastElapsed rate max
  have hreturned := Timed.run_lastPoll b (fun _ => rfl) hbefore hlast
  obtain ⟨start, -, hfirst, hwait⟩ := h.waits env henv 35 hreturned
  refine hwait.trans (Int.cast_le.mpr ?_)
  have hstart : 0 ≤ start := hfirst
  rw [hend]
  exact sub_le_self _ hstart

theorem keeps_of_usable (hne : max ≠ 0) (htime : time ≤ leastElapsed rate max) :
    Keeps b rate time max where
  returns env henv hzero := by
    have hexists : ∃ j, Timed.LastPoll env max j := by
      obtain ⟨n, hn⟩ := henv.unbounded (max + env.clock 1)
      have hmono : env.clock n ≤ env.clock (2 * (n + pollingCount) + 3) :=
        henv.mono (by omega)
      exact ⟨n + pollingCount, Timed.lastPoll_iff.mpr
        ⟨Nat.le_add_left _ _, hne, (lt_sub_iff_add_lt.mpr hn).trans_le
          (sub_le_sub_right hmono _)⟩⟩
    classical
    refine ⟨_, Timed.run_lastPoll b hzero (j := Nat.find hexists) ?_
      (Nat.find_spec hexists)⟩
    intro i hi
    exact Nat.find_min hexists hi
  waits env henv n hn := by
    obtain ⟨start, hstart, -, hlt⟩ := Timed.run_false henv hn
    obtain ⟨i, hi, rfl⟩ := Timed.run_start hstart
    refine ⟨_, hstart, henv.mono i.zero_le, htime.trans ?_⟩
    have helapsed := leastElapsed_le (dvd_sub (henv.cycles n) (henv.cycles i))
      (sub_nonneg.mpr (henv.mono hi.le)) hlt
    exact_mod_cast helapsed
  takes env henv n result hn := by
    have htaken := Timed.run_takenBy henv max n
    rw [hn] at htaken
    exact htaken

/-- A timed acquisition keeps its promise exactly for the usable timeouts. -/
theorem meets_iff (b : Template) (rate : ClockRate) (timeout : Timeout) :
    Meets b rate timeout ↔ timeout.Usable rate := by
  constructor
  · rintro ⟨max, hargument, hkeeps⟩
    exact ⟨max, hargument, hkeeps.ne_zero, hkeeps.time_le⟩
  · rintro ⟨max, hargument, hne, htime⟩
    exact ⟨max, hargument, keeps_of_usable hne htime⟩

/-! ## Timeouts of durations -/

variable {T U : DurationType}

/-- The time, in nanoseconds, is a whole number for which the conversion from a
duration with this representation is defined; it is below the end of the range
of `nanoseconds`, and it does not become zero modulo two to the width. -/
def Waitable (r : Rep) (time : ℚ) : Prop :=
  ∃ x : ℤ, time = x ∧ ((Rep.longLong.common r).common .long).Fits x ∧
    x < 2 ^ 63 ∧ ¬2 ^ 64 ∣ x

theorem nanoseconds_unit : nanoseconds.unit = 1 / 10 ^ 9 := by
  norm_num [DurationType.unit, Rational.Ratio.value, nanoseconds]

theorem toNanoseconds_eq {factor : Ratio} (d : Duration T)
    (h : conversion T nanoseconds = .ok factor) :
    ∃ x : ℤ, d.time * 10 ^ 9 = x ∧
      toNanoseconds factor d =
        if ((Rep.longLong.common T.rep).common .long).Fits x then
          some (Rep.longLong.type.convert x)
        else none := by
  obtain ⟨hden, hunit⟩ := Chrono.conversion_eq_ok_iff.mp h
  refine ⟨d.count * factor.num, ?_, ?_⟩
  · have hnano : nanoseconds.unit * 10 ^ 9 = 1 := by
      rw [nanoseconds_unit]
      norm_num
    rw [Duration.time, hunit, mul_assoc, mul_assoc, hnano, mul_one, Int.cast_mul]
  · rw [toNanoseconds, Chrono.durationCast_whole hden]
    exact apply_ite (Option.map fun d : Duration nanoseconds => d.count) _ _ _

/-- The conversion of a defined result to `long long`. -/
theorem convert_longLong (x : ℤ) :
    Rep.longLong.type.convert x % 2 ^ 64 = x % 2 ^ 64 ∧
      -2 ^ 63 ≤ Rep.longLong.type.convert x ∧
      Rep.longLong.type.convert x ≤ 2 ^ 63 - 1 := by
  obtain ⟨hlow, hhigh⟩ := Rep.longLong.type.fits_convert x
  exact ⟨Rep.longLong.type.convert_emod x, hlow, hhigh⟩

theorem leastElapsed_le_add (rate : ClockRate) (max : ℤ) :
    leastElapsed rate max ≤ 0 ∨ leastElapsed rate max ≤ max + 40 := by
  have hcycle : rate.nanosecondsPerCycle ≤ 40 := by
    cases rate <;> decide
  have hquotient := Int.mul_ediv_self_le (x := max) rate.pos.ne'
  rw [leastElapsed]
  by_cases hneg : max / rate.nanosecondsPerCycle + 1 ≤ 0
  · left
    rw [Int.toNat_of_nonpos hneg, Nat.cast_zero, mul_zero]
  · right
    rw [Int.toNat_of_nonneg (not_le.mp hneg).le, mul_add_one]
    exact add_le_add hquotient hcycle

/-- The converted argument is usable where the conversion is defined, does not
give zero, and does not give less. -/
theorem usable_iff_waitable (rate : ClockRate) (r : Rep) (x : ℤ) :
    (⟨x, if ((Rep.longLong.common r).common .long).Fits x then
        some (Rep.longLong.type.convert x) else none⟩ : Timeout).Usable rate ↔
      Waitable r x := by
  obtain ⟨hmod, hlow, hhigh⟩ := convert_longLong x
  constructor
  · rintro ⟨max, hargument, hne, htime⟩
    dsimp only at hargument htime
    split at hargument
    · rename_i hfits
      obtain rfl := Option.some.inj hargument
      have hle := Int.cast_le.mp htime
      have hbound := leastElapsed_le_add rate (Rep.longLong.type.convert x)
      exact ⟨x, rfl, hfits, by omega, by omega⟩
    · cases hargument
  · rintro ⟨y, hsame, hfits, hlt, hdvd⟩
    obtain rfl : x = y := Int.cast_injective hsame
    refine ⟨_, if_pos hfits, by omega, Int.cast_le.mpr ?_⟩
    have hgreater := lt_leastElapsed rate (Rep.longLong.type.convert x)
    by_cases hsmall : x < -2 ^ 63
    · have hnonneg : 0 ≤ leastElapsed rate (Rep.longLong.type.convert x) :=
        mul_nonneg rate.pos.le (Int.natCast_nonneg _)
      omega
    · omega

theorem meets_for_iff {b : Template} {rate : ClockRate} {relTime : Duration T}
    {timeout : Timeout} (h : timeoutFor relTime = .ok timeout) :
    Meets b rate timeout ↔ Waitable T.rep (relTime.time * 10 ^ 9) := by
  rw [timeoutFor, Rational.bind_eq_ok] at h
  obtain ⟨factor, hfactor, htimeout⟩ := h
  obtain ⟨x, htime, hconverted⟩ := toNanoseconds_eq relTime hfactor
  rw [meets_iff, ← Except.ok.inj htimeout, htime, hconverted]
  exact usable_iff_waitable rate T.rep x

theorem meets_until_iff {b : Template} {rate : ClockRate}
    {absTime : Duration T} {now : Duration U} {timeout : Timeout}
    (h : timeoutUntil absTime now = .ok timeout)
    (hcomparable : Chrono.Comparable absTime now)
    (hdiff : Chrono.Expressible T U (absTime.time - now.time)) :
    Meets b rate timeout ↔
      Waitable (T.rep.common U.rep) ((absTime.time - now.time) * 10 ^ 9) := by
  obtain ⟨C, d, hsub, hd⟩ := Chrono.sub_spec hcomparable hdiff
  obtain ⟨hcommon, hrep⟩ := Chrono.combine_commonType hsub
  rw [timeoutUntil, hsub, Rational.ok_bind, hcommon, Rational.ok_bind,
    Rational.bind_eq_ok] at h
  obtain ⟨factor, hfactor, htimeout⟩ := h
  obtain ⟨x, htime, hconverted⟩ := toNanoseconds_eq d hfactor
  rw [meets_iff, ← Except.ok.inj htimeout, ← hd, htime, ← hrep]
  simp only [Option.bind_some, hconverted]
  exact usable_iff_waitable rate C.rep x

/-- A timed acquisition of either template keeps its promise exactly where its
timeout reaches the poll loop, is not zero there, and is not too small.  For
`try_acquire_for` this is a condition on the time alone; so it is for
`try_acquire_until` where the difference can be expressed.  Zero stands for no
maximum: a call whose deadline is now never returns. -/
theorem timed_acquire_iff (b : Template) (rate : ClockRate) :
    (∀ timeout, Meets b rate timeout ↔ timeout.Usable rate) ∧
    (∀ (T : DurationType) (relTime : Duration T) timeout,
      timeoutFor relTime = .ok timeout →
      (Meets b rate timeout ↔ Waitable T.rep (relTime.time * 10 ^ 9))) ∧
    ∀ (T U : DurationType) (absTime : Duration T) (now : Duration U) timeout,
      timeoutUntil absTime now = .ok timeout →
      Chrono.Comparable absTime now →
      Chrono.Expressible T U (absTime.time - now.time) →
      (Meets b rate timeout ↔
        Waitable (T.rep.common U.rep)
          ((absTime.time - now.time) * 10 ^ 9)) := by
  refine ⟨meets_iff b rate, ?_, ?_⟩
  · intro T relTime timeout h
    exact meets_for_iff h
  · intro T U absTime now timeout h hcomparable hdiff
    exact meets_until_iff h hcomparable hdiff

theorem exists_conversion_nanoseconds (hunit : T.unit = 1 / 10 ^ 3) :
    ∃ factor, conversion T nanoseconds = .ok factor := by
  obtain ⟨factor, hnum, hden⟩ :=
    Chrono.exists_factor (k := 10 ^ 6) (by decide) (by decide)
  refine ⟨factor, Chrono.conversion_eq_ok_iff.mpr ⟨hden, ?_⟩⟩
  rw [hnum, hunit, nanoseconds_unit]
  norm_num

/-- A wait for one millisecond on a device keeps its promise, given as a number
of nanoseconds, as a relative time, and as the time 5 ms read at 4 ms. -/
theorem timed_acquire_iff_millisecond :
    Meets .maxOne .tsc100 ⟨10 ^ 6, some (10 ^ 6)⟩ ∧
    (∃ timeout, timeoutFor (⟨1, by decide⟩ : Duration Chrono.milliseconds) =
      .ok timeout ∧ Meets .general .tsc100 timeout) ∧
    ∃ timeout, timeoutUntil (⟨5, by decide⟩ : Duration Chrono.milliseconds)
      (⟨4, by decide⟩ : Duration Chrono.milliseconds) = .ok timeout ∧
        Meets .general .tsc100 timeout := by
  have hmilli : Chrono.milliseconds.unit = 1 / 10 ^ 3 := by
    norm_num [DurationType.unit, Rational.Ratio.value, Chrono.milliseconds]
  refine ⟨?_, ?_, ?_⟩
  · have hlong := lt_leastElapsed .tsc100 (10 ^ 6)
    refine ((timed_acquire_iff .maxOne .tsc100).1 _).mpr ⟨10 ^ 6, rfl, by decide, ?_⟩
    have hle : ((10 ^ 6 : ℤ) : ℚ) ≤ leastElapsed .tsc100 (10 ^ 6) := Int.cast_le.mpr hlong.le
    rwa [Int.cast_pow, Int.cast_ofNat] at hle
  · obtain ⟨factor, hconversion⟩ := exists_conversion_nanoseconds hmilli
    obtain ⟨timeout, htimeout⟩ : ∃ timeout,
        timeoutFor (⟨1, by decide⟩ : Duration Chrono.milliseconds) = .ok timeout := by
      simp only [timeoutFor, hconversion, Rational.ok_bind]
      exact ⟨_, rfl⟩
    refine ⟨timeout, htimeout, ?_⟩
    have h := (timed_acquire_iff .general .tsc100).2.1 _ _ timeout htimeout
    refine h.mpr ⟨10 ^ 6, ?_, by decide, by decide, by decide⟩
    rw [Duration.time, hmilli]
    norm_num
  · have hdiff : (⟨5, by decide⟩ : Duration Chrono.milliseconds).time -
        (⟨4, by decide⟩ : Duration Chrono.milliseconds).time =
          (⟨1, by decide⟩ : Duration Chrono.milliseconds).time := by
      rw [Duration.time, Duration.time, Duration.time]
      norm_num [← sub_mul]
    have hcomparable : Chrono.Comparable (⟨5, by decide⟩ : Duration Chrono.milliseconds)
        (⟨4, by decide⟩ : Duration Chrono.milliseconds) :=
      ⟨Chrono.compiles_self _, (Chrono.comparable_self _).left,
        (Chrono.comparable_self _).right⟩
    have hexpressible : Chrono.Expressible Chrono.milliseconds Chrono.milliseconds
        ((⟨5, by decide⟩ : Duration Chrono.milliseconds).time -
          (⟨4, by decide⟩ : Duration Chrono.milliseconds).time) := by
      rw [hdiff]
      exact (Chrono.comparable_self _).left
    obtain ⟨C, d, hsub, -⟩ := Chrono.sub_spec hcomparable hexpressible
    obtain ⟨hcommon, -⟩ := Chrono.combine_commonType hsub
    obtain ⟨-, hunit⟩ := Chrono.commonType_spec hcommon
    obtain ⟨factor, hconversion⟩ := exists_conversion_nanoseconds
      ((hunit.trans (Chrono.commonUnit_self _)).trans hmilli)
    obtain ⟨timeout, htimeout⟩ : ∃ timeout,
        timeoutUntil (⟨5, by decide⟩ : Duration Chrono.milliseconds)
          (⟨4, by decide⟩ : Duration Chrono.milliseconds) = .ok timeout := by
      simp only [timeoutUntil, hsub, hcommon, hconversion, Rational.ok_bind]
      exact ⟨_, rfl⟩
    refine ⟨timeout, htimeout, ?_⟩
    have h := (timed_acquire_iff .general .tsc100).2.2 _ _ _ _ timeout htimeout
      hcomparable hexpressible
    refine h.mpr ⟨10 ^ 6, ?_, by decide, by decide, by decide⟩
    rw [hdiff, Duration.time, hmilli]
    norm_num

/-- A wait for no time on an empty semaphore: the argument is zero, and the
call never returns `false`. -/
theorem timed_acquire_zero :
    ∃ timeout, timeoutFor (⟨0, by decide⟩ : Duration nanoseconds) = .ok timeout ∧
      timeout.time = 0 ∧ timeout.argument = some 0 ∧
      ∀ b rate, ¬Meets b rate timeout ∧
        ∃ env : Environment, env.Valid b rate ∧ (∀ n, env.counter n = 0) ∧
          ∀ n, ¬(Timed.run b env 0 n).Returned false := by
  obtain ⟨factor, hnum, hden⟩ :=
    Chrono.exists_factor (k := 1) (by decide) (by decide)
  have hconversion : conversion nanoseconds nanoseconds = .ok factor := by
    refine Chrono.conversion_eq_ok_iff.mpr ⟨hden, ?_⟩
    rw [hnum, Int.cast_one, one_mul]
  refine ⟨⟨0, some 0⟩, ?_, rfl, rfl, ?_⟩
  · simp only [timeoutFor, toNanoseconds, hconversion, Rational.ok_bind,
      durationCast, hnum, hden, ↓reduceIte, Duration.time, Int.cast_zero, zero_mul]
    rfl
  · intro b rate
    refine ⟨?_, Environment.slow rate 0, Environment.slow_valid b rate 0,
      fun _ => rfl, Timed.not_returned_zero (Environment.slow_valid b rate 0)⟩
    rintro ⟨max, hargument, hkeeps⟩
    exact hkeeps.ne_zero (Option.some.inj hargument).symm

end Libhipcxx.Semaphore
