import Libhipcxx.Support.Threads
import Libhipcxx.Support.Tournament
import Libhipcxx.Support.Transition

/-!
# The tree barrier

`__barrier_base<_CompletionF, _Sco>` keeps a vector of nodes, each with one
ticket for every round.  An arrival looks for a ticket of the first round from
the thread's favourite node on.  Who takes the last place of a ticket goes on to
the next round, and who gets through the last round completes the phase.

A program point stands before the compare-exchange, or the part of `arrive`, it
is named after; the rest of `__arrive` reads nothing that another thread writes.
An access beyond the vector, a shift that is not defined and an assert that does
not hold are failures, and nothing is said of what comes after one.  The account
of the phase and the accounts of the phases before are not read by the code.
-/

namespace Libhipcxx.Barrier.Tree

open Transition Threads Tournament

/-- `__phase_t`. -/
abbrev Phase := BitVec 8

/-! ## Between two accesses of a ticket -/

/-- The locals of `__arrive`. -/
structure Climb where
  oldPhase : Phase
  round : ℕ
  current : ℕ
  currentExpected : ℕ
  lastNode : ℕ
  deriving DecidableEq

/-- Where `__arrive` comes to: to a ticket, to its end, or to an error. -/
inductive Outcome where
  | attempt (c : Climb)
  | returns (last : Bool)
  | fails
  deriving DecidableEq

/-- `x &= ~( 1 << __round )`, where the shifted `1` is an `int`. -/
def clearRound (x round : ℕ) : Option ℕ :=
  if round < 32 then
    some (BitVec.ofNat 64 x &&& (~~~((1 : BitVec 32) <<< round)).signExtend 64).toNat
  else none

/-- The favourite node, which is not beyond the expected count. -/
def startIndex (expected favorite : ℕ) : ℕ :=
  if expected ≤ favorite then 0 else favorite

namespace Climb

def halfStep (c : Climb) : Phase := c.oldPhase + 1

def fullStep (c : Climb) : Phase := c.oldPhase + 2

/-- The head of the inner loop. -/
def search (c : Climb) : Outcome :=
  let current := if c.round = 0 then startIndex c.currentExpected c.current else c.current
  if current ≤ c.lastNode then .attempt { c with current := current } else .fails

/-- The head of the outer loop. -/
def enter (c : Climb) : Outcome :=
  if 63 < c.round then .fails
  else if c.currentExpected = 1 then .returns true
  else c.search

/-- The end of the outer loop. -/
def next (c : Climb) : Outcome :=
  match clearRound c.current c.round, clearRound c.lastNode c.round with
  | some current, some lastNode =>
      enter ⟨c.oldPhase, c.round + 1, current,
        c.currentExpected / 2 + c.currentExpected % 2, lastNode⟩
  | _, _ => .fails

/-- The end of the inner loop, with the ticket found at `expect`. -/
def advance (c : Climb) (expect : Phase) : Outcome :=
  if c.round = 0 ∧ expect = c.fullStep then search { c with current := c.current + 1 }
  else .fails

end Climb

/-! ## States -/

/-- `update` counts the arrivals of the call that are still to begin. -/
inductive Pc where
  | idle
  | ready (update : ℕ) (oldPhase : Phase)
  | attempt (update : ℕ) (c : Climb)
  | second (update : ℕ) (c : Climb)
  | completion (update : ℕ) (oldPhase : Phase)
  deriving DecidableEq

/-- The arrivals of a phase: how many were asked for, where those that began
have started, and how many have returned, and returned true. -/
structure Account where
  called : ℕ
  starts : List ℕ
  returned : ℕ
  trues : ℕ
  deriving DecidableEq

namespace Account

def fresh : Account := ⟨0, [], 0, 0⟩

def call (a : Account) (update : ℕ) : Account := { a with called := a.called + update }

def begin (a : Account) (first : ℕ) : Account := { a with starts := first :: a.starts }

def ret (a : Account) (last : Bool) : Account :=
  { a with returned := a.returned + 1, trues := a.trues + last.toNat }

variable (a : Account) (update first : ℕ) (last : Bool)

@[simp] theorem call_called : (a.call update).called = a.called + update := rfl
@[simp] theorem call_starts : (a.call update).starts = a.starts := rfl
@[simp] theorem call_returned : (a.call update).returned = a.returned := rfl
@[simp] theorem call_trues : (a.call update).trues = a.trues := rfl
@[simp] theorem begin_called : (a.begin first).called = a.called := rfl
@[simp] theorem begin_starts : (a.begin first).starts = first :: a.starts := rfl
@[simp] theorem begin_returned : (a.begin first).returned = a.returned := rfl
@[simp] theorem begin_trues : (a.begin first).trues = a.trues := rfl
@[simp] theorem ret_called : (a.ret last).called = a.called := rfl
@[simp] theorem ret_starts : (a.ret last).starts = a.starts := rfl
@[simp] theorem ret_returned : (a.ret last).returned = a.returned + 1 := rfl
@[simp] theorem ret_trues : (a.ret last).trues = a.trues + last.toNat := rfl

end Account

structure State (ι : Type) where
  phase : Phase
  tickets : ℕ → ℕ → Phase
  favorite : ι → ℕ
  pc : ι → Pc
  failed : Bool
  account : Account
  finished : List Account

/-- Of the steps in a call, one begins an arrival, one is its next
compare-exchange, and one completes the phase.  Elsewhere a thread may come to
any other favourite node. -/
inductive Label (ι : Type) where
  | favor (t : ι) (node : ℕ)
  | call (t : ι) (update : ℕ)
  | begin (t : ι)
  | exchange (t : ι)
  | complete (t : ι)

variable {ι : Type} [DecidableEq ι]

/-- The loop of `arrive` after an arrival. -/
def resume (update : ℕ) (oldPhase : Phase) : Pc :=
  if update = 0 then .idle else .ready update oldPhase

namespace State

def setPc (s : State ι) (t : ι) (pc : Pc) : State ι :=
  { s with pc := Function.update s.pc t pc }

def setTicket (s : State ι) (c : Climb) (value : Phase) : State ι :=
  { s with
    tickets := fun node round =>
      if node = c.current ∧ round = c.round then value else s.tickets node round }

def fail (s : State ι) : State ι := { s with failed := true }

/-- An arrival goes on to where it comes; in the first round the node it comes
to is the thread's new favourite. -/
def follow (s : State ι) (t : ι) (update : ℕ) (oldPhase : Phase) : Outcome → State ι
  | .attempt c =>
      { s.setPc t (.attempt update c) with
        favorite := if c.round = 0 then Function.update s.favorite t c.current else s.favorite }
  | .returns true =>
      { s.setPc t (.completion update oldPhase) with account := s.account.ret true }
  | .returns false =>
      { s.setPc t (resume update oldPhase) with account := s.account.ret false }
  | .fails => s.fail

def call (s : State ι) (t : ι) (update : ℕ) : State ι :=
  if 0 < update then
    { s.setPc t (.ready update s.phase) with account := s.account.call update }
  else s.fail

/-- The next arrival of a call; `update` are left after it. -/
def begin (n : ℕ) (s : State ι) (t : ι) (update : ℕ) (oldPhase : Phase) : State ι :=
  follow { s with account := s.account.begin (startIndex n (s.favorite t)) } t update oldPhase
    (Climb.enter ⟨oldPhase, 0, s.favorite t, n, n / 2⟩)

/-- The first compare-exchange at a ticket. -/
def attempt (s : State ι) (t : ι) (update : ℕ) (c : Climb) : State ι :=
  let expect := s.tickets c.current c.round
  if c.current = c.lastNode ∧ c.currentExpected % 2 = 1 then
    if expect = c.oldPhase then
      (s.setTicket c c.fullStep).follow t update c.oldPhase c.next
    else if expect = c.fullStep then s.follow t update c.oldPhase (c.advance expect)
    else s.fail
  else if expect = c.oldPhase then
    (s.setTicket c c.halfStep).follow t update c.oldPhase (.returns false)
  else if expect = c.halfStep then s.setPc t (.second update c)
  else s.follow t update c.oldPhase (c.advance expect)

/-- The compare-exchange of the second to come to a ticket. -/
def second (s : State ι) (t : ι) (update : ℕ) (c : Climb) : State ι :=
  let expect := s.tickets c.current c.round
  if expect = c.halfStep then
    (s.setTicket c c.fullStep).follow t update c.oldPhase c.next
  else if expect = c.fullStep then s.follow t update c.oldPhase (c.advance expect)
  else s.fail

/-- `__completion()` and the store of the next phase.  Without drops the expected
count is adjusted by 0. -/
def complete (s : State ι) (t : ι) (update : ℕ) (oldPhase : Phase) : State ι :=
  { s.setPc t (resume update oldPhase) with
    phase := oldPhase + 2
    account := .fresh
    finished := s.account :: s.finished }

end State

/-- The ticket is one of the vector's. -/
def Climb.InRange (n : ℕ) (c : Climb) : Prop := c.current < (n + 1) / 2 ∧ c.round < 64

instance (n : ℕ) (c : Climb) : Decidable (c.InRange n) :=
  inferInstanceAs (Decidable (_ ∧ _))

def act (n : ℕ) (s : State ι) : Label ι → Option (State ι)
  | .favor t node =>
      match s.pc t with
      | .idle => some { s with favorite := Function.update s.favorite t node }
      | _ => none
  | .call t update =>
      match s.pc t with
      | .idle => some (s.call t update)
      | _ => none
  | .begin t =>
      match s.pc t with
      | .ready (update + 1) oldPhase => some (s.begin n t update oldPhase)
      | _ => none
  | .exchange t =>
      match s.pc t with
      | .attempt update c => some (if c.InRange n then s.attempt t update c else s.fail)
      | .second update c => some (if c.InRange n then s.second t update c else s.fail)
      | _ => none
  | .complete t =>
      match s.pc t with
      | .completion update oldPhase => some (s.complete t update oldPhase)
      | _ => none

def step (n : ℕ) (s : State ι) (l : Label ι) : Option (State ι) :=
  if s.failed then none else act n s l

def start (favorite : ι → ℕ) : State ι where
  phase := 0
  tickets _ _ := 0
  favorite := favorite
  pc _ := .idle
  failed := false
  account := .fresh
  finished := []

/-- A barrier that expects `n` arrivals. -/
def system (ι : Type) [DecidableEq ι] (n : ℕ) : System (State ι) (Label ι) where
  start s := ∃ favorite, s = start favorite
  step := step n

/-- No more than `n` arrivals are asked for in a phase. -/
def Contract (n : ℕ) (s : State ι) : Label ι → Prop
  | .call _ update => 0 < update ∧ s.account.called + update ≤ n
  | _ => True

instance (n : ℕ) (s : State ι) : (l : Label ι) → Decidable (Contract n s l)
  | .call _ _ => inferInstanceAs (Decidable (_ ∧ _))
  | .favor _ _ | .begin _ | .exchange _ | .complete _ => inferInstanceAs (Decidable True)

/-- No more arrivals of the phase start from a node on than have a place there,
for each node after the first. -/
def HintsFit (n : ℕ) (s : State ι) : Label ι → Prop
  | .begin t => ∀ j < n, 0 < j →
      (startIndex n (s.favorite t) :: s.account.starts).countP (j ≤ ·) ≤ n - 2 * j
  | _ => True

instance (n : ℕ) (s : State ι) : (l : Label ι) → Decidable (HintsFit n s l)
  | .begin _ => inferInstanceAs (Decidable (∀ j < n, 0 < j → _ ≤ n - 2 * j))
  | .favor _ _ | .call _ _ | .exchange _ | .complete _ => inferInstanceAs (Decidable True)

/-- What a step of each kind does. -/
theorem step_cases {n : ℕ} {s s' : State ι} {l : Label ι} (h : step n s l = some s') :
    (∃ t node, l = .favor t node ∧
      s' = { s with favorite := Function.update s.favorite t node }) ∨
    (∃ t update, l = .call t update ∧ s.pc t = .idle ∧ s' = s.call t update) ∨
    (∃ t update oldPhase, l = .begin t ∧ s.pc t = .ready (update + 1) oldPhase ∧
      s' = s.begin n t update oldPhase) ∨
    (∃ t update c, s.pc t = .attempt update c ∧
      s' = if c.InRange n then s.attempt t update c else s.fail) ∨
    (∃ t update c, s.pc t = .second update c ∧
      s' = if c.InRange n then s.second t update c else s.fail) ∨
    (∃ t update oldPhase, s.pc t = .completion update oldPhase ∧
      s' = s.complete t update oldPhase) := by
  rw [step] at h
  split at h
  · cases h
  · cases l with
    | favor t node =>
      simp only [act] at h
      split at h
      · exact Or.inl ⟨t, node, rfl, (Option.some.inj h).symm⟩
      · cases h
    | call t update =>
      simp only [act] at h
      split at h
      · exact Or.inr (Or.inl ⟨t, update, rfl, ‹_›, (Option.some.inj h).symm⟩)
      · cases h
    | begin t =>
      simp only [act] at h
      split at h
      · exact Or.inr (Or.inr (Or.inl ⟨t, _, _, rfl, ‹_›, (Option.some.inj h).symm⟩))
      · cases h
    | exchange t =>
      simp only [act] at h
      split at h
      · exact Or.inr (Or.inr (Or.inr (Or.inl ⟨t, _, _, ‹_›, (Option.some.inj h).symm⟩)))
      · exact Or.inr (Or.inr (Or.inr (Or.inr (Or.inl
          ⟨t, _, _, ‹_›, (Option.some.inj h).symm⟩))))
      · cases h
    | complete t =>
      simp only [act] at h
      split at h
      · exact Or.inr (Or.inr (Or.inr (Or.inr (Or.inr
          ⟨t, _, _, ‹_›, (Option.some.inj h).symm⟩))))
      · cases h

end Libhipcxx.Barrier.Tree
