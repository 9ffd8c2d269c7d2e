import Libhipcxx.Semaphore.Base

/-!
# The two atomic semaphores

`__atomic_semaphore_base` keeps a `ptrdiff_t` and takes units with a weak
compare-exchange; its specialization for a maximum of one keeps a flag and
takes it with an exchange.  A program point stands before the atomic operation
it is named after.  A notification only wakes waiting threads, which test the
counter again at any time here.
-/

namespace Libhipcxx.Semaphore

open Transition Base

/-- Where a unit is asked for: in `try_acquire`, itself called from any of the
public functions, or in the polled lambda of `__acquire_slow_timed`. -/
inductive Site where
  | fast (call : Call)
  | poll
  deriving DecidableEq

def Site.call : Site → Call
  | .fast call => call
  | .poll => .timedAcquire

/-! ## The general template -/

namespace General

/-- The value of `__old` once it has been tested. -/
abbrev NonZero : Type := {old : ℤ // old ≠ 0}

inductive Pc where
  | idle
  | load (site : Site)
  | compareExchange (call : Call) (old : NonZero)
  | compareExchangeSlow (site : Site) (old : NonZero)
  | waitLoad
  | wait
  | pollTest
  | done (call : Call) (result : Bool)

def status : Pc → Status
  | .idle => .idle
  | .load site => .running site.call
  | .compareExchange call _ => .running call
  | .compareExchangeSlow site _ => .running site.call
  | .waitLoad => .running .acquire
  | .wait => .running .acquire
  | .pollTest => .running .timedAcquire
  | .done call result => .returned call result

/-- Where the callers of `__fetch_sub_if` and `__fetch_sub_if_slow` go on when
it returns `false`. -/
def failed : Site → Pc
  | .fast .tryAcquire => .done .tryAcquire false
  | .fast .acquire => .waitLoad
  | .fast .timedAcquire => .load .poll
  | .poll => .pollTest

/-- The test `__old != 0` of the loop in `__fetch_sub_if_slow`. -/
def fetchSubIfSlow (site : Site) (old : ℤ) : Pc :=
  if h : old = 0 then failed site else .compareExchangeSlow site ⟨old, h⟩

/-- After the load: `__fetch_sub_if` tries once before its slow loop, and the
lambda of `__acquire_slow_timed` goes to the loop at once. -/
def fetchSubIf (site : Site) (old : ℤ) : Pc :=
  if h : old = 0 then failed site
  else match site with
    | .fast call => .compareExchange call ⟨old, h⟩
    | .poll => .compareExchangeSlow .poll ⟨old, h⟩

/-- `compare_exchange_weak(__old, __old - 1)`, which reloads `__old` when it
fails. -/
def compareExchangeWeak (site : Site) (old : NonZero) (choice : Choice)
    (count : ℤ) : ℤ × Pc :=
  if count = old.1 ∧ choice ≠ .spuriousFailure then
    (old.1 - 1, .done site.call true)
  else
    (count, fetchSubIfSlow site count)

def next : Pc → Choice → ℤ → Option (ℤ × Pc)
  | .load site, _, count => some (count, fetchSubIf site count)
  | .compareExchange call old, choice, count =>
      some (compareExchangeWeak (.fast call) old choice count)
  | .compareExchangeSlow site old, choice, count =>
      some (compareExchangeWeak site old choice count)
  | .waitLoad, _, count =>
      some (count, if count ≠ 0 then .load (.fast .acquire) else .wait)
  | .wait, _, count => some (count, if count ≠ 0 then .waitLoad else .wait)
  | .pollTest, choice, count =>
      some (count, if choice = .timeExpired then .done .timedAcquire false
        else .load .poll)
  | .idle, _, _ => none
  | .done _ _, _, _ => none

/-- `max()` is `numeric_limits<ptrdiff_t>::max()`; `release` adds. -/
def base : Base Pc where
  max := 2 ^ 63 - 1
  idle := .idle
  enter call := .load (.fast call)
  status := status
  next := next
  release update count := some (count + update)

/-- Giving up on a zero counter fits every caller. -/
theorem effect_failed (site : Site) {count : ℤ} (hzero : count = 0) :
    Effect count count (status (failed site)) := by
  rcases site with (_ | _ | _) | _
  · exact .fail _ rfl (fun _ => hzero) (by decide)
  · exact .run _ rfl
  · exact .run _ rfl
  · exact .run _ rfl

theorem status_failed (site : Site) :
    status (failed site) = .running site.call ∨
      ∃ result, status (failed site) = .returned site.call result := by
  rcases site with (_ | _ | _) | _
  · exact Or.inr ⟨false, rfl⟩
  · exact Or.inl rfl
  · exact Or.inl rfl
  · exact Or.inl rfl

theorem effect_fetchSubIf (site : Site) (count : ℤ) :
    Effect count count (status (fetchSubIf site count)) := by
  unfold fetchSubIf
  split
  · rename_i hzero
    exact effect_failed site hzero
  · cases site with
    | fast call => exact .run _ rfl
    | poll => exact .run _ rfl

theorem status_fetchSubIf (site : Site) (count : ℤ) :
    status (fetchSubIf site count) = .running site.call ∨
      ∃ result, status (fetchSubIf site count) =
        .returned site.call result := by
  unfold fetchSubIf
  split
  · exact status_failed site
  · cases site with
    | fast call => exact Or.inl rfl
    | poll => exact Or.inl rfl

/-- The weak compare-exchange takes one unit from a positive counter, or
leaves the counter and goes on with its current value. -/
theorem effect_compareExchangeWeak (site : Site) (old : NonZero)
    (choice : Choice) {count : ℤ} (hcount : 0 ≤ count) :
    Effect count (compareExchangeWeak site old choice count).1
      (status (compareExchangeWeak site old choice count).2) := by
  unfold compareExchangeWeak
  split
  · rename_i hmatch
    have hpos : 0 < count := by
      have hne := old.2
      omega
    exact .take _ hpos (by rw [hmatch.1])
  · unfold fetchSubIfSlow
    split
    · rename_i hzero
      exact effect_failed site hzero
    · exact .run _ rfl

theorem status_compareExchangeWeak (site : Site) (old : NonZero)
    (choice : Choice) (count : ℤ) :
    status (compareExchangeWeak site old choice count).2 =
        .running site.call ∨
      ∃ result, status (compareExchangeWeak site old choice count).2 =
        .returned site.call result := by
  unfold compareExchangeWeak
  split
  · exact Or.inr ⟨true, rfl⟩
  · unfold fetchSubIfSlow
    split
    · exact status_failed site
    · exact Or.inl rfl

theorem next_effect {pc pc' : Pc} {choice : Choice} {count count' : ℤ}
    (hcount : 0 ≤ count) (h : next pc choice count = some (count', pc')) :
    Effect count count' (status pc') := by
  cases pc with
  | idle => cases h
  | load site =>
      cases h
      exact effect_fetchSubIf site count
  | compareExchange call old =>
      have hcas : compareExchangeWeak (.fast call) old choice count =
          (count', pc') := Option.some.inj h
      have heffect := effect_compareExchangeWeak (.fast call) old choice hcount
      rwa [hcas] at heffect
  | compareExchangeSlow site old =>
      have hcas : compareExchangeWeak site old choice count =
          (count', pc') := Option.some.inj h
      have heffect := effect_compareExchangeWeak site old choice hcount
      rwa [hcas] at heffect
  | waitLoad =>
      cases h
      split <;> exact .run _ rfl
  | wait =>
      cases h
      split <;> exact .run _ rfl
  | pollTest =>
      cases h
      split
      · exact .fail _ rfl (by simp) (by decide)
      · exact .run _ rfl
  | done call result => cases h

theorem next_running {pc pc' : Pc} {choice : Choice} {count count' : ℤ}
    (h : next pc choice count = some (count', pc')) :
    ∃ call, status pc = .running call ∧
      (status pc' = .running call ∨
        ∃ result, status pc' = .returned call result) := by
  cases pc with
  | idle => cases h
  | load site =>
      cases h
      exact ⟨site.call, rfl, status_fetchSubIf site count⟩
  | compareExchange call old =>
      have hcas : compareExchangeWeak (.fast call) old choice count =
          (count', pc') := Option.some.inj h
      have hstatus := status_compareExchangeWeak (.fast call) old choice count
      rw [hcas] at hstatus
      exact ⟨call, rfl, hstatus⟩
  | compareExchangeSlow site old =>
      have hcas : compareExchangeWeak site old choice count =
          (count', pc') := Option.some.inj h
      have hstatus := status_compareExchangeWeak site old choice count
      rw [hcas] at hstatus
      exact ⟨site.call, rfl, hstatus⟩
  | waitLoad =>
      cases h
      refine ⟨.acquire, rfl, Or.inl ?_⟩
      split <;> rfl
  | wait =>
      cases h
      refine ⟨.acquire, rfl, Or.inl ?_⟩
      split <;> rfl
  | pollTest =>
      cases h
      refine ⟨.timedAcquire, rfl, ?_⟩
      split
      · exact Or.inr ⟨false, rfl⟩
      · exact Or.inl rfl
  | done call result => cases h

theorem lawful : base.Lawful where
  status_idle := rfl
  status_enter _ := rfl
  next_running := next_running
  next_effect hcount _ h := next_effect hcount h
  release_eq _ _ h := (Option.some.inj h).symm

end General

/-! ## The specialization for a maximum of one -/

namespace MaxOne

inductive Pc where
  | idle
  | exchange (site : Site)
  | wait
  | pollTest
  | done (call : Call) (result : Bool)

def status : Pc → Status
  | .idle => .idle
  | .exchange site => .running site.call
  | .wait => .running .acquire
  | .pollTest => .running .timedAcquire
  | .done call result => .returned call result

/-- Where the callers of `try_acquire` go on when it returns `false`. -/
def failed : Site → Pc
  | .fast .tryAcquire => .done .tryAcquire false
  | .fast .acquire => .wait
  | .fast .timedAcquire => .exchange .poll
  | .poll => .pollTest

def next : Pc → Choice → ℤ → Option (ℤ × Pc)
  | .exchange site, _, available =>
      some (0, if available = 1 then .done site.call true else failed site)
  | .wait, _, available =>
      some (available,
        if available ≠ 0 then .exchange (.fast .acquire) else .wait)
  | .pollTest, choice, available =>
      some (available, if choice = .timeExpired then .done .timedAcquire false
        else .exchange .poll)
  | .idle, _, _ => none
  | .done _ _, _, _ => none

/-- `release` asserts that the update is one and stores one. -/
def base : Base Pc where
  max := 1
  idle := .idle
  enter call := .exchange (.fast call)
  status := status
  next := next
  release update _ := if update = 1 then some 1 else none

theorem effect_failed (site : Site) :
    Effect 0 0 (status (failed site)) := by
  rcases site with (_ | _ | _) | _
  · exact .fail _ rfl (fun _ => rfl) (by decide)
  · exact .run _ rfl
  · exact .run _ rfl
  · exact .run _ rfl

theorem status_failed (site : Site) :
    status (failed site) = .running site.call ∨
      ∃ result, status (failed site) = .returned site.call result := by
  rcases site with (_ | _ | _) | _
  · exact Or.inr ⟨false, rfl⟩
  · exact Or.inl rfl
  · exact Or.inl rfl
  · exact Or.inl rfl

theorem next_effect {pc pc' : Pc} {choice : Choice} {count count' : ℤ}
    (hcount : 0 ≤ count) (hmax : count ≤ 1)
    (h : next pc choice count = some (count', pc')) :
    Effect count count' (status pc') := by
  cases pc with
  | idle => cases h
  | exchange site =>
      cases h
      split
      · rename_i hone
        exact .take _ (by omega) (by omega)
      · have hzero : count = 0 := by omega
        rw [hzero]
        exact effect_failed site
  | wait =>
      cases h
      split <;> exact .run _ rfl
  | pollTest =>
      cases h
      split
      · exact .fail _ rfl (by simp) (by decide)
      · exact .run _ rfl
  | done call result => cases h

theorem next_running {pc pc' : Pc} {choice : Choice} {count count' : ℤ}
    (h : next pc choice count = some (count', pc')) :
    ∃ call, status pc = .running call ∧
      (status pc' = .running call ∨
        ∃ result, status pc' = .returned call result) := by
  cases pc with
  | idle => cases h
  | exchange site =>
      cases h
      refine ⟨site.call, rfl, ?_⟩
      split
      · exact Or.inr ⟨true, rfl⟩
      · exact status_failed site
  | wait =>
      cases h
      refine ⟨.acquire, rfl, Or.inl ?_⟩
      split <;> rfl
  | pollTest =>
      cases h
      refine ⟨.timedAcquire, rfl, ?_⟩
      split
      · exact Or.inr ⟨false, rfl⟩
      · exact Or.inl rfl
  | done call result => cases h

theorem lawful : base.Lawful where
  status_idle := rfl
  status_enter _ := rfl
  next_running := next_running
  next_effect := next_effect
  release_eq := by
    intro update count count' hcount hmax h
    have hrelease : (if update = 1 then some (1 : ℤ) else none) = some count' := h
    have hmax' : count + update ≤ 1 := hmax
    split at hrelease
    · have hone := Option.some.inj hrelease
      omega
    · cases hrelease

end MaxOne

/-! ## Conservation -/

/-- The primary template and its specialization. -/
inductive Template where
  | general
  | maxOne

def Template.Pc : Template → Type
  | .general => General.Pc
  | .maxOne => MaxOne.Pc

def Template.base : (b : Template) → Base b.Pc
  | .general => General.base
  | .maxOne => MaxOne.base

theorem Template.lawful (b : Template) : b.base.Lawful := by
  cases b with
  | general => exact General.lawful
  | maxOne => exact MaxOne.lawful

/-- In every run of any number of threads the counter is the initial count,
plus the units released, minus the successful calls, and is never negative; a
call that returned has taken one unit if it succeeded and none otherwise; and
a `try_acquire` that returned `false` saw the counter at zero within the
call. -/
theorem semaphore_conserves_units (b : Template) (ι : Type) [DecidableEq ι]
    (init : ℕ) (hinit : (init : ℤ) ≤ b.base.max) :
    (∀ s, (b.base.system ι init).Reachable b.base.WithinMax s →
      s.count = init + s.released - s.successes ∧ 0 ≤ s.count ∧
      ∀ t call result, b.base.status (s.pc t) = .returned call result →
        s.taken t = if result then 1 else 0) ∧
    (∀ ls u t,
      (b.base.system ι init).Path b.base.WithinMax (b.base.start init) ls u →
      b.base.status (u.pc t) = .returned .tryAcquire false →
      ∃ before after m, ls = before ++ after ∧
        (b.base.system ι init).Path b.base.WithinMax (b.base.start init)
          before m ∧
        (b.base.system ι init).Path b.base.WithinMax m after u ∧
        (∀ l ∈ after, l.WithinCall t) ∧
        b.base.status (m.pc t) = .running .tryAcquire ∧ m.count = 0) := by
  constructor
  · intro s hs
    have hbal := balanced_of_reachable b.lawful hinit hs
    have hsettled := settled_of_reachable b.lawful hinit hs
    refine ⟨hbal.count_eq, hbal.nonneg, ?_⟩
    intro t call result hreturned
    have htaken := hsettled t
    rwa [hreturned] at htaken
  · intro ls u t hpath hfalse
    exact tryAcquire_false_of_path b.lawful hinit hpath hfalse

/-- A thread tries an empty semaphore and fails; then the other one releases a
unit, and the first takes it. -/
theorem semaphore_conserves_units_empty :
    ∃ u v : State Bool General.Pc,
      (General.base.system Bool 0).exec General.base.WithinMax (General.base.start 0)
        [.call false .tryAcquire, .step false .ordinary] = some u ∧
      General.base.status (u.pc false) = .returned .tryAcquire false ∧
      u.taken false = 0 ∧
      (∃ m : State Bool General.Pc,
        General.base.status (m.pc false) = .running .tryAcquire ∧ m.count = 0) ∧
      (General.base.system Bool 0).exec General.base.WithinMax u
        [.release true 1, .ret false, .call false .tryAcquire, .step false .ordinary,
          .step false .ordinary] = some v ∧
      General.base.status (v.pc false) = .returned .tryAcquire true ∧
      v.taken false = 1 ∧ v.released = 1 ∧ v.successes = 1 ∧ v.count = (0 : ℕ) + 1 - 1 := by
  obtain ⟨u, hu, hfalse, v, hv, htrue, hreleased, hsuccesses⟩ :
      ∃ u : State Bool General.Pc,
        (General.base.system Bool 0).exec General.base.WithinMax (General.base.start 0)
          [.call false .tryAcquire, .step false .ordinary] = some u ∧
        General.base.status (u.pc false) = .returned .tryAcquire false ∧
        ∃ v : State Bool General.Pc,
          (General.base.system Bool 0).exec General.base.WithinMax u
            [.release true 1, .ret false, .call false .tryAcquire, .step false .ordinary,
              .step false .ordinary] = some v ∧
          General.base.status (v.pc false) = .returned .tryAcquire true ∧
          v.released = 1 ∧ v.successes = 1 :=
    ⟨_, rfl, rfl, _, rfl, rfl, rfl, rfl⟩
  obtain ⟨hstates, hpaths⟩ := semaphore_conserves_units .general Bool 0 (by decide)
  have hfirst := System.path_of_exec hu
  have hlast := hfirst.append (System.path_of_exec hv)
  obtain ⟨-, -, m, -, -, -, -, hrunning, hzero⟩ := hpaths _ u false hfirst hfalse
  obtain ⟨-, -, htaken⟩ := hstates u ⟨_, _, rfl, hfirst⟩
  obtain ⟨hcount, -, htaken'⟩ := hstates v ⟨_, _, rfl, hlast⟩
  rw [hreleased, hsuccesses] at hcount
  exact ⟨u, v, hu, hfalse, htaken false _ _ hfalse, ⟨m, hrunning, hzero⟩, hv, htrue,
    htaken' false _ _ htrue, hreleased, hsuccesses, hcount⟩

end Libhipcxx.Semaphore
