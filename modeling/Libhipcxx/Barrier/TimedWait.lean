import Libhipcxx.Barrier.PackedRegular
import Libhipcxx.Chrono.DurationCast
import Libhipcxx.Wait.Polling

/-!
# Timed waits on a barrier

`try_wait_for` and `try_wait_parity_for` of the block barrier, beside the other
operations of the participants and a clock.  A time of less than a nanosecond is
a single poll; with any other the wait polls until the clock shows, after a
number of polls, that more than the time has passed.

A participant whose wait has been given up may wait for the same phase again.
-/

namespace Libhipcxx.Barrier.TimedWait

open Transition Threads Barrier.Packed
open Chrono (Duration DurationType CastFits castTo castTo_spec nanoseconds)
open Wait (pollCount pollExpired pollExpired_iff pollingCount)
open PackedRegular (Together Waiting)

/-- The next step of a call: its only poll, the first look at the clock, a poll,
or the look at the clock after it. -/
inductive Point where
  | once
  | begin
  | poll
  | look
  deriving DecidableEq

/-- A call: `__nanosec`, and `__start` and `__count` of the poll loop.  The other
fields are a record that the code does not keep: the time asked for, the arrivals
of the thread, the clock and the phase at the call, how many polls there were,
and the phase at the last one. -/
structure Call where
  max : ℤ
  point : Point
  start : ℤ
  count : ℕ
  dur : (T : DurationType) × Duration T
  round : ℕ
  entered : ℤ
  calledIn : ℕ
  polls : ℕ
  polledIn : ℕ

/-- The result of a call, and the clock when it returned. -/
structure Return where
  value : Bool
  call : Call
  returned : ℤ

structure State (ι : Type) where
  users : PackedRegular.State ι
  now : ℤ
  calls : ι → Option Call
  returns : ι → Option Return

/-- A step of another operation, the beginning of a timed wait, a step of one,
and the passing of time. -/
inductive Label (ι : Type) where
  | plain (l : Packed.Label ι)
  | tryWaitFor (t : ι) (token : BitVec 64) (T : DurationType) (dur : Duration T)
  | tryWaitParityFor (t : ι) (parity : Bool) (T : DurationType) (dur : Duration T)
  | timed (t : ι)
  | tick (elapsed : ℕ)

def thread {ι : Type} : Packed.Label ι → ι
  | .arrive t _ | .arriveAndDrop t | .wait t _ | .waitParity t _ | .step t | .ret t => t

/-- `__call_try_wait` or `__call_try_wait_parity` of a waiting thread. -/
def poll {ι : Type} (s : Packed.State ι) (t : ι) : Bool :=
  match s.pc t with
  | .waiting token => tryWait s.word token
  | .waitingParity parity => tryWaitParity s.word parity
  | _ => false

variable {ι : Type} [DecidableEq ι]

namespace State

/-- The call with its parameters, when the thread waits. -/
def enter (s : State ι) (users : PackedRegular.State ι) (t : ι) (max : ℤ)
    (dur : (T : DurationType) × Duration T) : State ι :=
  { s with
    users := users
    calls := Function.update s.calls t (some
      { max := max
        point := if max < 1 then .once else .begin
        start := 0
        count := 0
        dur := dur
        round := (s.users.team t).rounds
        entered := s.now
        calledIn := s.users.barrier.ledger.phaseNo
        polls := 0
        polledIn := s.users.barrier.ledger.phaseNo })
    returns := Function.update s.returns t none }

def setCall (s : State ι) (t : ι) (call : Call) : State ι :=
  { s with calls := Function.update s.calls t (some call) }

/-- The call returns; only a wait that has succeeded is over. -/
def finish (s : State ι) (t : ι) (call : Call) (value : Bool) : State ι :=
  { s with
    users :=
      { s.users with
        barrier := s.users.barrier.setPc t .idle
        team := if value then Function.update s.users.team t ((s.users.team t).move .free)
          else s.users.team }
    calls := Function.update s.calls t none
    returns := Function.update s.returns t (some ⟨value, call, s.now⟩) }

/-- The call after another poll. -/
def polled (s : State ι) (call : Call) : Call :=
  { call with polls := call.polls + 1, polledIn := s.users.barrier.ledger.phaseNo }

/-- `__try_wait` and `__libcpp_thread_poll_with_backoff`. -/
def timed (s : State ι) (t : ι) (call : Call) : State ι :=
  match call.point with
  | .once => s.finish t (s.polled call) (poll s.users.barrier t)
  | .begin => s.setCall t { call with start := s.now, point := .poll }
  | .poll =>
      if poll s.users.barrier t then s.finish t (s.polled call) true
      else s.setCall t { s.polled call with point := .look }
  | .look =>
      if pollExpired call.count call.max (s.now - call.start) then s.finish t call false
      else s.setCall t { call with count := pollCount call.count, point := .poll }

end State

/-- The wait begins with `duration_cast` to nanoseconds. -/
def enterFor (s : State ι) (t : ι) (l : Packed.Label ι) {T : DurationType} (dur : Duration T) :
    Option (State ι) :=
  match castTo nanoseconds dur with
  | .ok (some nanosec) =>
      (PackedRegular.step s.users l).map fun users =>
        s.enter users t nanosec.count ⟨T, dur⟩
  | _ => none

def step (s : State ι) : Label ι → Option (State ι)
  | .plain l =>
      if s.calls (thread l) = none then
        (PackedRegular.step s.users l).map fun users => { s with users := users }
      else none
  | .tryWaitFor t token _ dur => enterFor s t (.wait t token) dur
  | .tryWaitParityFor t parity _ dur => enterFor s t (.waitParity t parity) dur
  | .timed t => (s.calls t).map fun call => s.timed t call
  | .tick elapsed => some { s with now := s.now + elapsed }

variable [Fintype ι]

def start (ι : Type) [Fintype ι] : State ι where
  users := PackedRegular.start ι
  now := 0
  calls _ := none
  returns _ := none

def system (ι : Type) [DecidableEq ι] [Fintype ι] : System (State ι) (Label ι) where
  start s := s = start ι
  step := step

/-- A timed wait is used as any other wait. -/
def Steady {ι : Type} (s : State ι) : Label ι → Prop
  | .plain l => PackedRegular.Steady s.users l
  | .tryWaitFor t token _ _ => PackedRegular.Regular s.users (.wait t token)
  | .tryWaitParityFor t parity _ _ => PackedRegular.Regular s.users (.waitParity t parity)
  | .timed _ | .tick _ => True

instance (s : State ι) : (l : Label ι) → Decidable (Steady s l)
  | .plain l => inferInstanceAs (Decidable (PackedRegular.Steady s.users l))
  | .tryWaitFor t token _ _ =>
      inferInstanceAs (Decidable (PackedRegular.Regular s.users (.wait t token)))
  | .tryWaitParityFor t parity _ _ =>
      inferInstanceAs (Decidable (PackedRegular.Regular s.users (.waitParity t parity)))
  | .timed _ | .tick _ => inferInstanceAs (Decidable True)

/-! ## What a call keeps -/

/-- A call that has looked at the clock before. -/
def AtPoint (call : Call) : Prop :=
  match call.point with
  | .once => call.max < 1 ∧ call.polls = 0
  | .begin => 1 ≤ call.max ∧ call.count = 0 ∧ call.polls = 0
  | .poll => 1 ≤ call.max ∧ call.entered ≤ call.start ∧ call.count ≤ call.polls
  | .look =>
      1 ≤ call.max ∧ call.entered ≤ call.start ∧ call.count < call.polls ∧
        call.polledIn < call.round ∧ call.calledIn ≤ call.polledIn

/-- The maximum is the time asked for, cut off to nanoseconds. -/
def Casts (call : Call) : Prop :=
  ∃ nanosec, castTo nanoseconds call.dur.2 = .ok (some nanosec) ∧ nanosec.count = call.max

structure CallOk (now : ℤ) (phaseNo : ℕ) (call : Call) : Prop where
  casts : Casts call
  entered_le : call.entered ≤ now
  calledIn_le : call.calledIn ≤ phaseNo
  point : AtPoint call

/-- What is true of a call that has returned.  Its value says whether the phase
of the thread's arrival was over at the last poll; where it says no, either the
only poll was made, or more than the maximum has passed, with all the polls that
are made without a look at the clock and one more. -/
structure Promise (r : Return) : Prop where
  casts : Casts r.call
  exact : r.value = true ↔ r.call.round ≤ r.call.polledIn
  later : r.call.calledIn ≤ r.call.polledIn
  once : r.call.max < 1 → r.call.polls = 1
  waited : r.value = false → 1 ≤ r.call.max →
    pollingCount < r.call.polls ∧ r.call.max < r.returned - r.call.entered

theorem CallOk.mono {now now' : ℤ} {phaseNo phaseNo' : ℕ} {call : Call}
    (h : CallOk now phaseNo call) (hnow : now ≤ now') (hphase : phaseNo ≤ phaseNo') :
    CallOk now' phaseNo' call :=
  ⟨h.casts, h.entered_le.trans hnow, h.calledIn_le.trans hphase, h.point⟩

structure Inv (s : State ι) : Prop where
  users : PackedRegular.Inv s.users
  calls : ∀ t call, s.calls t = some call →
    Waiting s.users t ∧ call.round = (s.users.team t).rounds ∧
      CallOk s.now s.users.barrier.ledger.phaseNo call
  returns : ∀ t r, s.returns t = some r → Promise r

omit [DecidableEq ι] in
theorem inv_start [Nonempty ι] (hcard : Fintype.card ι ≤ max) : Inv (start ι) where
  users := PackedRegular.inv_start hcard
  calls _ _ h := by cases h
  returns _ _ h := by cases h

/-! ## The other threads -/

section Frame

omit [Fintype ι]

variable {s s' : PackedRegular.State ι} {l : Packed.Label ι} {t u : ι}

theorem pc_of_ne {b b' : Packed.State ι} (h : Packed.step b l = some b') (hu : u ≠ thread l) :
    b'.pc u = b.pc u := by
  cases l with
  | arrive t _ | arriveAndDrop t | wait t _ | waitParity t _ =>
    rw [Packed.step] at h
    split_ifs at h
    obtain rfl := Option.some.inj h
    exact Function.update_of_ne hu _ _
  | step t =>
    rw [Packed.step] at h
    split at h
    all_goals try obtain rfl := Option.some.inj h
    · exact Function.update_of_ne hu _ _
    · exact Function.update_of_ne hu _ _
    · rw [reAdd_pc]
      exact Function.update_of_ne hu _ _
    · split_ifs
      · exact Function.update_of_ne hu _ _
      · rfl
    · split_ifs
      · exact Function.update_of_ne hu _ _
      · rfl
    · cases h
  | ret t =>
    rw [Packed.step] at h
    split at h
    · obtain rfl := Option.some.inj h
      exact Function.update_of_ne hu _ _
    · cases h

theorem teamAfter_of_ne (hu : u ≠ thread l) : PackedRegular.teamAfter s l u = s.team u := by
  cases l with
  | arrive t _ | arriveAndDrop t => exact Function.update_of_ne hu _ _
  | wait t _ | waitParity t _ | ret t => rfl
  | step t =>
    rw [PackedRegular.teamAfter]
    cases s.barrier.pc t with
    | dropAdd | arriveAdd _ => exact Function.update_of_ne hu _ _
    | waiting _ | waitingParity _ =>
      dsimp only
      split_ifs
      · exact Function.update_of_ne hu _ _
      · rfl
    | idle | reAdd _ | done _ => rfl

/-- Another thread's step leaves a wait alone. -/
theorem waiting_of_ne (h : PackedRegular.step s l = some s') (hu : u ≠ thread l)
    (hwaiting : Waiting s u) : Waiting s' u ∧ s'.team u = s.team u := by
  obtain ⟨barrier, hbarrier, rfl⟩ := Option.map_eq_some_iff.mp h
  refine ⟨?_, teamAfter_of_ne hu⟩
  rw [Waiting] at hwaiting ⊢
  rwa [pc_of_ne hbarrier hu]

theorem phaseNo_le (h : PackedRegular.step s l = some s') :
    s.barrier.ledger.phaseNo ≤ s'.barrier.ledger.phaseNo := by
  obtain ⟨barrier, hbarrier, rfl⟩ := Option.map_eq_some_iff.mp h
  obtain ⟨hmoves, hstays⟩ := phaseNo_step hbarrier
  by_cases hlast : CountsLast s.barrier l
  · exact (hmoves hlast).symm ▸ Nat.le_succ _
  · exact (hstays hlast).ge

end Frame

/-! ## One step -/

variable {s s' : State ι} {t : ι} {call : Call}

omit [DecidableEq ι] in
/-- A poll tells whether the phase of the thread's arrival is over. -/
theorem poll_iff {users : PackedRegular.State ι} (h : PackedRegular.Inv users)
    (hwaiting : Waiting users t) :
    poll users.barrier t = true ↔ (users.team t).rounds ≤ users.barrier.ledger.phaseNo := by
  rw [← (PackedRegular.exact_of_waiting h hwaiting).2, poll, PackedRegular.PollEnds]
  cases users.barrier.pc t with
  | waiting _ | waitingParity _ => rfl
  | idle | dropAdd | arriveAdd _ | reAdd _ | done _ => simp only [Bool.false_eq_true]

omit [DecidableEq ι] [Fintype ι] in
theorem quiet_of_waiting {users : PackedRegular.State ι} (hwaiting : Waiting users t) :
    quiet (users.barrier.pc t) := by
  rw [Waiting] at hwaiting
  split at hwaiting
  · rename_i hpc
    rw [hpc]
    trivial
  · rename_i hpc
    rw [hpc]
    trivial
  · exact hwaiting.elim

/-- A wait ends or is given up, and the token is kept. -/
theorem inv_resume {users : PackedRegular.State ι} (h : PackedRegular.Inv users)
    (hwaiting : Waiting users t) {value : Bool}
    (hvalue : value = true → (users.team t).rounds ≤ users.barrier.ledger.phaseNo) :
    PackedRegular.Inv
      { users with
        barrier := users.barrier.setPc t .idle
        team := if value then Function.update users.team t ((users.team t).move .free)
          else users.team } := by
  have hstanding := (PackedRegular.exact_of_waiting h hwaiting).1
  have hbarrier : CleanInv (users.barrier.setPc t .idle) := by
    refine ⟨inv_quiet h.barrier.toInv (quiet_of_waiting hwaiting) trivial, h.barrier.expected, ?_⟩
    exact tracked_setPc_same t h.barrier.tracked trivial
  have htokens : users.tokens = Function.update users.tokens t (users.tokens t) :=
    (Function.update_eq_self t _).symm
  cases value with
  | true =>
    refine h.move (p := .idle) rfl htokens rfl hbarrier le_rfl (h.team.pass hstanding (hvalue rfl))
      ?_ (Or.inl rfl)
    intro hleaves
    cases hleaves
  | false =>
    refine h.move (p := .idle) (Function.update_eq_self t _).symm htokens rfl hbarrier le_rfl
      h.team Or.inl (Or.inr (Or.inr ⟨hstanding, ?_⟩))
    have hholds := h.threads t
    rw [Waiting] at hwaiting
    split at hwaiting
    · rename_i hpc
      rw [hpc] at hholds
      exact hholds.2.2
    · rename_i hpc
      rw [hpc] at hholds
      exact hholds.2.2
    · exact hwaiting.elim

theorem Inv.plain (h : Inv s) {l : Packed.Label ι} {users : PackedRegular.State ι}
    (hnone : s.calls (thread l) = none) (hsteady : PackedRegular.Steady s.users l)
    (hstep : PackedRegular.step s.users l = some users) : Inv { s with users := users } := by
  refine ⟨PackedRegular.inv_step h.users hsteady hstep, fun u call hcall => ?_, h.returns⟩
  have hu : u ≠ thread l := by
    rintro rfl
    have hsome : s.calls (thread l) = some call := hcall
    rw [hnone] at hsome
    cases hsome
  obtain ⟨hwaiting, hround, hok⟩ := h.calls u call hcall
  obtain ⟨hstill, hteam⟩ := waiting_of_ne hstep hu hwaiting
  refine ⟨hstill, ?_, hok.mono le_rfl (phaseNo_le hstep)⟩
  rw [hround, hteam]

/-- A thread begins a timed wait. -/
theorem Inv.enter (h : Inv s) {l : Packed.Label ι} {users : PackedRegular.State ι}
    (hsteady : PackedRegular.Steady s.users l) (hstep : PackedRegular.step s.users l = some users)
    (hwaiting : Waiting users (thread l)) (hteam : users.team (thread l) = s.users.team (thread l))
    {T : DurationType} {dur : Duration T} {nanosec : Duration nanoseconds}
    (hcast : castTo nanoseconds dur = .ok (some nanosec)) :
    Inv (s.enter users (thread l) nanosec.count ⟨T, dur⟩) := by
  refine ⟨PackedRegular.inv_step h.users hsteady hstep, fun u call hcall => ?_, fun u r hr => ?_⟩
  · by_cases hu : u = thread l
    · subst hu
      simp only [State.enter, Function.update_self] at hcall
      obtain rfl := Option.some.inj hcall
      refine ⟨hwaiting, congrArg Member.rounds hteam.symm, ⟨nanosec, hcast, rfl⟩, le_rfl,
        phaseNo_le hstep, ?_⟩
      rw [AtPoint]
      dsimp only
      split_ifs with hless
      · exact ⟨hless, rfl⟩
      · exact ⟨not_lt.mp hless, rfl, rfl⟩
    · simp only [State.enter, Function.update_of_ne hu] at hcall
      obtain ⟨hother, hround, hok⟩ := h.calls u call hcall
      obtain ⟨hstill, hsame⟩ := waiting_of_ne hstep hu hother
      refine ⟨hstill, ?_, hok.mono le_rfl (phaseNo_le hstep)⟩
      rw [hround]
      exact congrArg Member.rounds hsame.symm
  · by_cases hu : u = thread l
    · subst hu
      simp only [State.enter, Function.update_self] at hr
      cases hr
    · simp only [State.enter, Function.update_of_ne hu] at hr
      exact h.returns u r hr

theorem Inv.setCall (h : Inv s) (hcall : s.calls t = some call) {call' : Call}
    (hround : call'.round = call.round)
    (hok : CallOk s.now s.users.barrier.ledger.phaseNo call') : Inv (s.setCall t call') := by
  refine ⟨h.users, fun u c hc => ?_, h.returns⟩
  by_cases hu : u = t
  · subst hu
    simp only [State.setCall, Function.update_self] at hc
    obtain rfl := Option.some.inj hc
    obtain ⟨hwaiting, hsame, -⟩ := h.calls u call hcall
    exact ⟨hwaiting, hround.trans hsame, hok⟩
  · simp only [State.setCall, Function.update_of_ne hu] at hc
    exact h.calls u c hc

theorem Inv.finish (h : Inv s) (hcall : s.calls t = some call) {call' : Call} {value : Bool}
    (hvalue : value = true → call.round ≤ s.users.barrier.ledger.phaseNo)
    (hpromise : Promise ⟨value, call', s.now⟩) : Inv (s.finish t call' value) := by
  obtain ⟨hwaiting, hround, -⟩ := h.calls t call hcall
  refine ⟨inv_resume h.users hwaiting (hround ▸ hvalue), fun u c hc => ?_, fun u r hr => ?_⟩
  · by_cases hu : u = t
    · subst hu
      simp only [State.finish, Function.update_self] at hc
      cases hc
    · simp only [State.finish, Function.update_of_ne hu] at hc
      obtain ⟨hother, hsame, hok⟩ := h.calls u c hc
      refine ⟨?_, ?_, hok⟩
      · have hpc : (s.users.barrier.setPc t .idle).pc u = s.users.barrier.pc u :=
          Function.update_of_ne hu _ _
        rw [Waiting] at hother ⊢
        rw [← hpc] at hother
        exact hother
      · rw [hsame, State.finish]
        cases value with
        | true => exact congrArg Member.rounds (Function.update_of_ne hu _ _).symm
        | false => rfl
  · by_cases hu : u = t
    · subst hu
      simp only [State.finish, Function.update_self] at hr
      obtain rfl := Option.some.inj hr
      exact hpromise
    · simp only [State.finish, Function.update_of_ne hu] at hr
      exact h.returns u r hr

/-- A poll that has not failed before counts towards those without a look. -/
theorem pollCount_le (count : ℕ) : pollCount count ≤ count + 1 := by
  rw [pollCount]
  split_ifs
  · exact le_rfl
  · exact Nat.le_succ _

theorem inv_timed (h : Inv s) (hcall : s.calls t = some call) : Inv (s.timed t call) := by
  obtain ⟨hwaiting, hround, hok⟩ := h.calls t call hcall
  have hover := poll_iff h.users hwaiting
  rw [← hround] at hover
  have hpoint := hok.point
  rw [AtPoint] at hpoint
  rw [State.timed]
  split at hpoint
  · obtain ⟨hmax, hpolls⟩ := hpoint
    refine h.finish hcall hover.mp ⟨hok.casts, hover, hok.calledIn_le, fun _ => ?_, fun _ hlarge => ?_⟩
    · exact congrArg (· + 1) hpolls
    · exact absurd hmax (not_lt.mpr hlarge)
  · obtain ⟨hmax, hcount, hpolls⟩ := hpoint
    refine h.setCall hcall rfl ⟨hok.casts, hok.entered_le, hok.calledIn_le, hmax, hok.entered_le, ?_⟩
    rw [hcount]
    exact Nat.zero_le _
  · obtain ⟨hmax, hstart, hcount⟩ := hpoint
    split_ifs with hpoll
    · refine h.finish hcall (fun _ => hover.mp hpoll) ⟨hok.casts, ?_, hok.calledIn_le,
        fun hsmall => ?_, fun hfalse => ?_⟩
      · exact ⟨fun _ => hover.mp hpoll, fun _ => rfl⟩
      · exact absurd hsmall (not_lt.mpr hmax)
      · cases hfalse
    · refine h.setCall hcall rfl ⟨hok.casts, hok.entered_le, hok.calledIn_le, hmax, hstart,
        Nat.lt_succ_of_le hcount, ?_, hok.calledIn_le⟩
      exact not_le.mp fun hle => hpoll (hover.mpr hle)
  · obtain ⟨hmax, hstart, hcount, hbefore, hlater⟩ := hpoint
    split_ifs with hexpired
    · obtain ⟨hpolls, -, hpassed⟩ := pollExpired_iff.mp hexpired
      refine h.finish hcall (fun hfalse => ?_) ⟨hok.casts, ?_, hlater, fun hsmall => ?_,
        fun _ _ => ⟨hpolls.trans_lt hcount, ?_⟩⟩
      · cases hfalse
      · exact ⟨fun hfalse => (by cases hfalse), fun hle => absurd hle (not_le.mpr hbefore)⟩
      · exact absurd hsmall (not_lt.mpr hmax)
      · exact hpassed.trans_le (sub_le_sub_left hstart _)
    · refine h.setCall hcall rfl ⟨hok.casts, hok.entered_le, hok.calledIn_le, hmax, hstart, ?_⟩
      exact (pollCount_le _).trans hcount

omit [Fintype ι] in
theorem waiting_of_wait {users users' : PackedRegular.State ι} {token : BitVec 64}
    (h : PackedRegular.step users (.wait t token) = some users') :
    Waiting users' t ∧ users'.team t = users.team t := by
  obtain ⟨barrier, hbarrier, rfl⟩ := Option.map_eq_some_iff.mp h
  rw [Packed.step] at hbarrier
  split_ifs at hbarrier
  obtain rfl := Option.some.inj hbarrier
  refine ⟨?_, rfl⟩
  simp only [Waiting, State.setPc, Function.update_self]

omit [Fintype ι] in
theorem waiting_of_waitParity {users users' : PackedRegular.State ι} {parity : Bool}
    (h : PackedRegular.step users (.waitParity t parity) = some users') :
    Waiting users' t ∧ users'.team t = users.team t := by
  obtain ⟨barrier, hbarrier, rfl⟩ := Option.map_eq_some_iff.mp h
  rw [Packed.step] at hbarrier
  split_ifs at hbarrier
  obtain rfl := Option.some.inj hbarrier
  refine ⟨?_, rfl⟩
  simp only [Waiting, State.setPc, Function.update_self]

theorem inv_enterFor (h : Inv s) {l : Packed.Label ι}
    (hsteady : PackedRegular.Steady s.users l)
    (hwaiting : ∀ users, PackedRegular.step s.users l = some users →
      Waiting users (thread l) ∧ users.team (thread l) = s.users.team (thread l))
    {T : DurationType} {dur : Duration T} (hstep : enterFor s (thread l) l dur = some s') :
    Inv s' := by
  rw [enterFor] at hstep
  split at hstep
  · rename_i nanosec hcast
    obtain ⟨users, husers, rfl⟩ := Option.map_eq_some_iff.mp hstep
    obtain ⟨hwaits, hteam⟩ := hwaiting users husers
    exact h.enter hsteady husers hwaits hteam hcast
  · cases hstep

theorem inv_step (h : Inv s) {l : Label ι} (hl : Steady s l) (hstep : step s l = some s') :
    Inv s' := by
  cases l with
  | plain l =>
    rw [step] at hstep
    split_ifs at hstep with hnone
    obtain ⟨users, husers, rfl⟩ := Option.map_eq_some_iff.mp hstep
    exact h.plain hnone hl husers
  | tryWaitFor t token T dur =>
    have hsteady : PackedRegular.Steady s.users (.wait t token) := ⟨hl, False.elim⟩
    exact inv_enterFor h hsteady (fun _ => waiting_of_wait) hstep
  | tryWaitParityFor t parity T dur =>
    have hsteady : PackedRegular.Steady s.users (.waitParity t parity) := ⟨hl, False.elim⟩
    exact inv_enterFor h hsteady (fun _ => waiting_of_waitParity) hstep
  | timed t =>
    obtain ⟨call, hcall, rfl⟩ := Option.map_eq_some_iff.mp hstep
    exact inv_timed h hcall
  | tick elapsed =>
    obtain rfl := Option.some.inj hstep
    refine ⟨h.users, fun u call hcall => ?_, h.returns⟩
    obtain ⟨hwaiting, hround, hok⟩ := h.calls u call hcall
    exact ⟨hwaiting, hround, hok.mono (Int.le_add_of_nonneg_right (Int.natCast_nonneg _)) le_rfl⟩

theorem inv_of_reachable [Nonempty ι] (hcard : Fintype.card ι ≤ max)
    (h : (system ι).Reachable Steady s) : Inv s := by
  refine h.invariant ?_ ?_
  · rintro s rfl
    exact inv_start hcard
  · intro s l s' hinv hl hstep
    exact inv_step hinv hl hstep

/-! ## A call whose time has passed -/

/-- The call polls, and more than the maximum has passed since it read the clock. -/
structure Expired (now : ℤ) (call : Call) : Prop where
  polling : call.point = .poll ∨ call.point = .look
  bounded : 1 ≤ call.max
  passed : call.max < now - call.start

/-- A bound on the steps that are left to a call once its time has passed. -/
def stepsLeft (call : Call) : ℕ :=
  match call.point with
  | .look => 2 * (pollingCount - call.count) + 1
  | _ => 2 * (pollingCount - call.count) + 2

omit [Fintype ι] in
/-- A step of the call ends it or brings it nearer to its end. -/
theorem timed_expired (hexpired : Expired s.now call) :
    (s.timed t call).calls t = none ∨
      ∃ call', (s.timed t call).calls t = some call' ∧ Expired s.now call' ∧
        stepsLeft call' + 1 ≤ stepsLeft call := by
  obtain ⟨hpolling, hbounded, hpassed⟩ := hexpired
  rw [State.timed, stepsLeft]
  rcases hpolling with hpoint | hpoint
  · rw [hpoint]
    dsimp only
    split_ifs
    · exact Or.inl (Function.update_self _ _ _)
    · exact Or.inr ⟨_, Function.update_self _ _ _, ⟨Or.inr rfl, hbounded, hpassed⟩, le_rfl⟩
  · rw [hpoint]
    dsimp only
    split_ifs with hlook
    · exact Or.inl (Function.update_self _ _ _)
    · refine Or.inr ⟨_, Function.update_self _ _ _, ⟨Or.inl rfl, hbounded, hpassed⟩, ?_⟩
      have hfew : call.count < pollingCount := by
        by_contra hmany
        refine hlook (pollExpired_iff.mpr ⟨not_lt.mp hmany, ?_, hpassed⟩)
        exact (Int.lt_of_lt_of_le Int.zero_lt_one hbounded).ne'
      rw [stepsLeft, pollCount, if_pos hfew]
      dsimp only
      omega

def isTimed (t : ι) : Label ι → Bool
  | .timed u => decide (u = t)
  | _ => false

omit [Fintype ι] in
theorem calls_of_enterFor {l : Packed.Label ι} {T : DurationType} {dur : Duration T} {u : ι}
    (hstep : enterFor s t l dur = some s') (hu : u ≠ t) :
    s'.calls u = s.calls u ∧ s'.now = s.now := by
  rw [enterFor] at hstep
  split at hstep
  · obtain ⟨users, -, rfl⟩ := Option.map_eq_some_iff.mp hstep
    exact ⟨Function.update_of_ne hu _ _, rfl⟩
  · cases hstep

omit [Fintype ι] in
theorem calls_of_timed {u : ι} (hu : u ≠ t) : (s.timed t call).calls u = s.calls u := by
  rw [State.timed]
  split
  · exact Function.update_of_ne hu _ _
  · exact Function.update_of_ne hu _ _
  · split_ifs
    · exact Function.update_of_ne hu _ _
    · exact Function.update_of_ne hu _ _
  · split_ifs
    · exact Function.update_of_ne hu _ _
    · exact Function.update_of_ne hu _ _

omit [Fintype ι] in
theorem timed_now (s : State ι) (t : ι) (call : Call) : (s.timed t call).now = s.now := by
  rw [State.timed]
  split
  · rfl
  · rfl
  · split_ifs
    · rfl
    · rfl
  · split_ifs
    · rfl
    · rfl

omit [Fintype ι] in
/-- A thread does not begin a wait while it waits. -/
theorem not_enterFor (hwaiting : Waiting s.users t) {l : Packed.Label ι} {T : DurationType}
    {dur : Duration T}
    (hidle : ∀ barrier, Packed.step s.users.barrier l = some barrier →
      s.users.barrier.pc t = .idle) :
    enterFor s t l dur = none := by
  have hnone : PackedRegular.step s.users l = none := by
    rw [PackedRegular.step]
    cases hstep : Packed.step s.users.barrier l with
    | none => rfl
    | some barrier =>
      rw [Waiting, hidle barrier hstep] at hwaiting
      exact hwaiting.elim
  rw [enterFor, hnone]
  split
  · rfl
  · rfl

/-- What is not a step of the call leaves it alone. -/
theorem calls_of_step (h : Inv s) (hcall : s.calls t = some call) {l : Label ι}
    (hl : isTimed t l = false) (hstep : step s l = some s') :
    s'.calls t = some call ∧ s.now ≤ s'.now := by
  have hwaiting := (h.calls t call hcall).1
  cases l with
  | plain l =>
    rw [step] at hstep
    split_ifs at hstep
    obtain ⟨users, -, rfl⟩ := Option.map_eq_some_iff.mp hstep
    exact ⟨hcall, le_rfl⟩
  | tryWaitFor u token T dur =>
    rw [step] at hstep
    have hu : t ≠ u := by
      rintro rfl
      rw [not_enterFor hwaiting fun _ => PackedRegular.idle_of_wait] at hstep
      cases hstep
    obtain ⟨hcalls, hnow⟩ := calls_of_enterFor hstep hu
    exact ⟨hcalls.trans hcall, hnow.ge⟩
  | tryWaitParityFor u parity T dur =>
    rw [step] at hstep
    have hu : t ≠ u := by
      rintro rfl
      rw [not_enterFor hwaiting fun _ => PackedRegular.idle_of_waitParity] at hstep
      cases hstep
    obtain ⟨hcalls, hnow⟩ := calls_of_enterFor hstep hu
    exact ⟨hcalls.trans hcall, hnow.ge⟩
  | timed u =>
    obtain ⟨other, -, rfl⟩ := Option.map_eq_some_iff.mp hstep
    have hu : t ≠ u := by
      rintro rfl
      rw [isTimed, decide_eq_false_iff_not] at hl
      exact hl rfl
    exact ⟨(calls_of_timed hu).trans hcall, (timed_now s u other).ge⟩
  | tick elapsed =>
    obtain rfl := Option.some.inj hstep
    exact ⟨hcall, Int.le_add_of_nonneg_right (Int.natCast_nonneg _)⟩

/-- A run from a call whose time has passed: the call returns on the way, or has
made no more steps than were left to it. -/
theorem run_expired [Nonempty ι] (hcard : Fintype.card ι ≤ max)
    (hreach : (system ι).Reachable Steady s) (hcall : s.calls t = some call)
    (hexpired : Expired s.now call) {ls : List (Label ι)}
    (hpath : (system ι).Path Steady s ls s') :
    (∃ before m, before <+: ls ∧ (system ι).Path Steady s before m ∧ m.calls t = none) ∨
      ∃ call', s'.calls t = some call' ∧ Expired s'.now call' ∧
        stepsLeft call' + ls.countP (isTimed t) ≤ stepsLeft call := by
  induction hpath with
  | nil => exact Or.inr ⟨call, hcall, hexpired, le_rfl⟩
  | @snoc m m' ls l hpath hl hstep ih =>
    rcases ih with ⟨before, e, hprefix, hbefore, hnone⟩ | ⟨call', hcall', hexpired', hleft⟩
    · exact Or.inl ⟨before, e, hprefix.trans (List.prefix_append _ _), hbefore, hnone⟩
    · obtain ⟨r, ms, hr, hrun⟩ := hreach
      have hinv := inv_of_reachable hcard ⟨r, _, hr, hrun.append hpath⟩
      rw [List.countP_append, List.countP_singleton]
      cases htimed : isTimed t l with
      | false =>
        obtain ⟨hsame, hnow⟩ := calls_of_step hinv hcall' htimed hstep
        refine Or.inr ⟨call', hsame, ⟨hexpired'.polling, hexpired'.bounded, ?_⟩, hleft⟩
        exact hexpired'.passed.trans_le (sub_le_sub_right hnow _)
      | true =>
        obtain rfl : l = .timed t := by
          cases l with
          | timed u => rw [of_decide_eq_true htimed]
          | plain _ | tryWaitFor _ _ _ _ | tryWaitParityFor _ _ _ _ | tick _ => cases htimed
        have hnext : (m.calls t).map (fun call => m.timed t call) = some m' := hstep
        rw [hcall'] at hnext
        obtain rfl := Option.some.inj hnext
        rcases timed_expired (t := t) hexpired' with hnone | ⟨call'', hcall'', hstill, hless⟩
        · exact Or.inl ⟨_, _, List.prefix_refl _, hpath.snoc hl hstep, hnone⟩
        · refine Or.inr ⟨call'', hcall'', ?_, ?_⟩
          · rwa [timed_now]
          · rw [if_pos rfl]
            omega

theorem stepsLeft_bounds (call : Call) : 1 ≤ stepsLeft call ∧ stepsLeft call ≤ 34 := by
  have hcount : pollingCount - call.count ≤ 16 := Nat.sub_le _ _
  rw [stepsLeft]
  split
  · omega
  · omega

/-! ## What a timed wait promises -/

/-- The time is less than one more than its cast. -/
theorem time_lt {call : Call} (h : Casts call) (hfits : CastFits nanoseconds call.dur.2) :
    call.dur.2.time / nanoseconds.unit < call.max + 1 := by
  obtain ⟨nanosec, hcast, hmax⟩ := h
  obtain ⟨truncated, htruncated, hcount⟩ := castTo_spec hfits
  rw [hcast] at htruncated
  obtain rfl := Option.some.inj (Except.ok.inj htruncated)
  rw [← hmax, hcount, Rounding.truncate]
  split_ifs
  · exact Int.lt_floor_add_one _
  · exact (Int.le_ceil _).trans_lt (lt_add_one _)

/-- More than the time has passed, or it was less than a nanosecond. -/
theorem Promise.time {r : Return} (h : Promise r) (hfits : CastFits nanoseconds r.call.dur.2)
    (hvalue : r.value = false) :
    r.call.dur.2.time / nanoseconds.unit < 1 ∨
      r.call.dur.2.time / nanoseconds.unit < (r.returned - r.call.entered : ℤ) := by
  have htime := time_lt h.casts hfits
  by_cases hmax : 1 ≤ r.call.max
  · right
    have hpassed : r.call.max + 1 ≤ r.returned - r.call.entered := (h.waited hvalue hmax).2
    exact htime.trans_le (mod_cast hpassed)
  · left
    have hsmall : r.call.max + 1 ≤ 1 := by omega
    exact htime.trans_le (mod_cast hsmall)

/-- In every run of a packed barrier in regular use where waits may be timed: the
threads stay together; a timed wait returns whether the phase of the thread's own
arrival was over at its last poll, so `true` if it was over before the call; it
returns `false` only when more time than it was given has passed, or after its
only poll where that was less than a nanosecond; and it returns within 34 of its
steps once more than the maximum has passed since it read the clock. -/
theorem timed_wait (ι : Type) [Fintype ι] [DecidableEq ι] [Nonempty ι]
    (hcard : Fintype.card ι ≤ max) (s : State ι) (h : (system ι).Reachable Steady s) :
    Together s.users ∧
    (∀ t r, s.returns t = some r → Promise r ∧
      (r.call.round ≤ r.call.calledIn → r.value = true) ∧
      (CastFits nanoseconds r.call.dur.2 → r.value = false →
        r.call.dur.2.time / nanoseconds.unit < 1 ∨
          r.call.dur.2.time / nanoseconds.unit < (r.returned - r.call.entered : ℤ))) ∧
    ∀ t call, s.calls t = some call → Expired s.now call →
      ∀ ls s', (system ι).Path Steady s ls s' → 34 ≤ ls.countP (isTimed t) →
        ∃ before m, before <+: ls ∧ (system ι).Path Steady s before m ∧ m.calls t = none := by
  have hinv := inv_of_reachable hcard h
  refine ⟨hinv.users.together, fun t r hr => ?_, fun t call hcall hexpired ls s' hpath hmany => ?_⟩
  · have hpromise := hinv.returns t r hr
    exact ⟨hpromise, fun hbefore => hpromise.exact.mpr (hbefore.trans hpromise.later),
      hpromise.time⟩
  · rcases run_expired hcard h hcall hexpired hpath with hreturned | ⟨call', -, -, hleft⟩
    · exact hreturned
    · have hfew := (stepsLeft_bounds call).2
      have hmore := (stepsLeft_bounds call').1
      omega

/-- Thread `0` waits alone for five nanoseconds, and gives up after 17 polls. -/
theorem timed_wait_alone :
    ∃ (s : State (Fin 2)) (r : Return), s.returns 0 = some r ∧ r.value = false ∧
      r.call.polls = 17 ∧ Together s.users ∧ Promise r := by
  have hrun : ((system (Fin 2)).exec Steady (start (Fin 2))
      ([.plain (.arrive 0 1), .plain (.step 0), .plain (.ret 0),
        .tryWaitFor 0 0 nanoseconds ⟨5, by decide⟩] ++ List.replicate 34 (.timed 0) ++
        [.tick 6, .timed 0])).bind
      (fun s => (s.returns 0).map fun r => (r.value, r.call.polls)) = some (false, 17) := by
    decide +kernel
  obtain ⟨s, hs, hreturn⟩ := Option.bind_eq_some_iff.mp hrun
  obtain ⟨r, hr, heq⟩ := Option.map_eq_some_iff.mp hreturn
  have hwait := timed_wait (Fin 2) (by decide) s (System.reachable_of_exec rfl hs)
  exact ⟨s, r, hr, congrArg Prod.fst heq, congrArg Prod.snd heq, hwait.1, (hwait.2.1 0 r hr).1⟩

end Libhipcxx.Barrier.TimedWait
