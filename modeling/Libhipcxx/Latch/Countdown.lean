import Libhipcxx.Support.Threads
import Libhipcxx.Support.Transition
import Mathlib.Data.Int.Notation
import Mathlib.Data.Nat.Notation

/-!
# The latch

Any number of threads run the functions of `__latch_base` on one counter.  A
thread is at a program point, and takes one atomic step at a time.  The waiting
of `__counter.wait` is the repeated observation of the counter it stands for.

Three records, which the code never reads, say what has happened: the updates
of the calls that have begun, the updates that have been subtracted, and the
notifications that have been issued.
-/

namespace Libhipcxx.Latch

open Transition Threads

/-- The public functions. -/
inductive Call where
  | countDown (update : ℤ)
  | arriveAndWait (update : ℤ)
  | tryWait
  | wait
  deriving DecidableEq

/-- The next atomic operation of a thread.  The flag of a `count_down` says
that it was called by `arrive_and_wait`. -/
inductive Point where
  | idle
  | fetchSub (update : ℤ) (arrive : Bool)
  | notifyAll (arrive : Bool)
  | load
  | wait (current : ℤ)
  | tryLoad
  | tried (result : Bool)
  | waited
  | aborted
  deriving DecidableEq

/-- The end of `count_down`: `arrive_and_wait` goes on to `wait`. -/
def afterCountDown (arrive : Bool) : Point :=
  if arrive then .load else .idle

/-- The beginning of `count_down`, up to its first assertion. -/
def countDown (update : ℤ) (arrive : Bool) : Point :=
  if 0 < update then .fetchSub update arrive else .aborted

def enter : Call → Point
  | .countDown update => countDown update false
  | .arriveAndWait update => countDown update true
  | .tryWait => .tryLoad
  | .wait => .load

/-- The atomic operation at a point. -/
def next : Point → ℤ → Option (ℤ × Point)
  | .fetchSub update arrive, old =>
      some (old - update,
        if update ≤ old then
          if old = update then .notifyAll arrive else afterCountDown arrive
        else .aborted)
  | .notifyAll arrive, counter => some (counter, afterCountDown arrive)
  | .load, current =>
      some (current, if current = 0 then .waited else .wait current)
  | .wait current, counter =>
      some (counter, if counter = current then .wait current else .load)
  | .tryLoad, counter => some (counter, .tried (counter = 0))
  | _, _ => none

/-- The update of a call. -/
def Call.update : Call → ℤ
  | .countDown update => update
  | .arriveAndWait update => update
  | _ => 0

/-- The update that a thread is about to subtract. -/
def Point.update : Point → ℤ
  | .fetchSub update _ => update
  | _ => 0

/-- One for a thread that is about to notify. -/
def Point.notifying : Point → ℕ
  | .notifyAll _ => 1
  | _ => 0

/-- The function has returned. -/
def Point.returned : Point → Bool
  | .tried _ => true
  | .waited => true
  | _ => false

structure State (ι : Type) where
  counter : ℤ
  pc : ι → Point
  begun : ℤ
  completed : ℤ
  notified : ℕ

inductive Label (ι : Type) where
  | call (t : ι) (call : Call)
  | step (t : ι)
  | ret (t : ι)

variable {ι : Type} [DecidableEq ι]

def step (s : State ι) : Label ι → Option (State ι)
  | .call t call =>
      if s.pc t = .idle then
        some { s with
          pc := Function.update s.pc t (enter call)
          begun := s.begun + call.update }
      else none
  | .step t =>
      (next (s.pc t) s.counter).map fun (counter, pc) =>
        { s with
          counter := counter
          pc := Function.update s.pc t pc
          completed := s.completed + (s.pc t).update
          notified := s.notified + (s.pc t).notifying }
  | .ret t =>
      if (s.pc t).returned then
        some { s with pc := Function.update s.pc t .idle }
      else none

def start (ι : Type) (expected : ℕ) : State ι where
  counter := expected
  pc _ := .idle
  begun := 0
  completed := 0
  notified := 0

def system (ι : Type) [DecidableEq ι] (expected : ℕ) :
    System (State ι) (Label ι) where
  start s := s = start ι expected
  step := step

/-! ## Admitted calls -/

/-- The updates sum to at most the initial count. -/
def WithinExpected (expected : ℕ) (s : State ι) : Label ι → Prop
  | .call _ call => s.begun + call.update ≤ expected
  | _ => True

/-- An update is positive, as the first assertion of `count_down` demands. -/
def Label.Positive : Label ι → Prop
  | .call _ (.countDown update) => 0 < update
  | .call _ (.arriveAndWait update) => 0 < update
  | _ => True

def Counting (expected : ℕ) (s : State ι) (l : Label ι) : Prop :=
  WithinExpected expected s l ∧ l.Positive

instance {ι : Type} (expected : ℕ) (s : State ι) (l : Label ι) :
    Decidable (WithinExpected expected s l) := by
  cases l <;> unfold WithinExpected <;> infer_instance

instance {ι : Type} (l : Label ι) : Decidable l.Positive := by
  rcases l with ⟨t, update | update | _ | _⟩ | t | t <;>
    unfold Label.Positive <;> infer_instance

instance {ι : Type} (expected : ℕ) (s : State ι) (l : Label ι) :
    Decidable (Counting expected s l) :=
  inferInstanceAs (Decidable (_ ∧ _))

/-- What a step of each kind does. -/
theorem step_cases {s s' : State ι} {l : Label ι} (h : step s l = some s') :
    (∃ t call, l = .call t call ∧ s.pc t = .idle ∧
      s' = { s with
        pc := Function.update s.pc t (enter call)
        begun := s.begun + call.update }) ∨
    (∃ t counter pc, l = .step t ∧
      next (s.pc t) s.counter = some (counter, pc) ∧
      s' = { s with
        counter := counter
        pc := Function.update s.pc t pc
        completed := s.completed + (s.pc t).update
        notified := s.notified + (s.pc t).notifying }) ∨
    (∃ t, l = .ret t ∧ (s.pc t).returned = true ∧
      s' = { s with pc := Function.update s.pc t .idle }) := by
  cases l with
  | call t call =>
      rw [step] at h
      split at h
      · rename_i hidle
        exact Or.inl ⟨t, call, rfl, hidle, (Option.some.inj h).symm⟩
      · cases h
  | step t =>
      obtain ⟨⟨counter, pc⟩, hnext, hs'⟩ := Option.map_eq_some_iff.mp h
      exact Or.inr (Or.inl ⟨t, counter, pc, rfl, hnext, hs'.symm⟩)
  | ret t =>
      rw [step] at h
      split at h
      · rename_i hreturned
        exact Or.inr (Or.inr ⟨t, rfl, hreturned, (Option.some.inj h).symm⟩)
      · cases h

/-- What holds of the point of every thread. -/
structure Sound (counter : ℤ) (pc : Point) : Prop where
  update_pos : ∀ update arrive, pc = .fetchSub update arrive → 0 < update
  not_aborted : pc ≠ .aborted
  returned_zero : pc = .tried true ∨ pc = .waited → counter = 0

/-- What the atomic operation at a point does: it subtracts an update, or it
leaves the counter. -/
inductive Effect (counter : ℤ) : Point → ℤ → Point → Prop
  | last (update : ℤ) (arrive : Bool) (hcounter : counter = update) :
      Effect counter (.fetchSub update arrive) 0 (.notifyAll arrive)
  | count (update : ℤ) (arrive : Bool) (hlt : update < counter) :
      Effect counter (.fetchSub update arrive) (counter - update)
        (afterCountDown arrive)
  | fail (update : ℤ) (arrive : Bool) (hlt : counter < update) :
      Effect counter (.fetchSub update arrive) (counter - update) .aborted
  | observe {pc pc' : Point} (hupdate : pc.update = 0)
      (hupdate' : pc'.update = 0) (hnotifying : pc'.notifying = 0)
      (hsound : Sound counter pc') :
      Effect counter pc counter pc'

@[simp]
theorem Point.update_idle : Point.idle.update = 0 := rfl

@[simp]
theorem Point.update_fetchSub (update : ℤ) (arrive : Bool) :
    (Point.fetchSub update arrive).update = update := rfl

@[simp]
theorem Point.notifying_fetchSub (update : ℤ) (arrive : Bool) :
    (Point.fetchSub update arrive).notifying = 0 := rfl

theorem afterCountDown_spec (arrive : Bool) (counter : ℤ) :
    (afterCountDown arrive).update = 0 ∧ (afterCountDown arrive).notifying = 0 ∧
      Sound counter (afterCountDown arrive) := by
  cases arrive <;> exact ⟨rfl, rfl, by simp [afterCountDown],
    by simp [afterCountDown], by simp [afterCountDown]⟩

theorem effect_of_next {counter counter' : ℤ} {pc pc' : Point}
    (h : next pc counter = some (counter', pc')) :
    Effect counter pc counter' pc' := by
  cases pc with
  | fetchSub update arrive =>
      obtain ⟨rfl, rfl⟩ := Prod.mk.inj (Option.some.inj h)
      rcases lt_trichotomy update counter with hlt | heq | hgt
      · rw [if_pos hlt.le, if_neg hlt.ne']
        exact Effect.count update arrive hlt
      · rw [if_pos heq.le, if_pos heq.symm, heq, sub_self]
        exact Effect.last counter arrive rfl
      · rw [if_neg (not_le.mpr hgt)]
        exact Effect.fail update arrive hgt
  | notifyAll arrive =>
      obtain ⟨rfl, rfl⟩ := Prod.mk.inj (Option.some.inj h)
      obtain ⟨hupdate, hnotifying, hsound⟩ := afterCountDown_spec arrive counter
      exact Effect.observe rfl hupdate hnotifying hsound
  | load =>
      obtain ⟨rfl, rfl⟩ := Prod.mk.inj (Option.some.inj h)
      by_cases hzero : counter = 0
      · rw [if_pos hzero]
        exact Effect.observe rfl rfl rfl ⟨by simp, by simp, fun _ => hzero⟩
      · rw [if_neg hzero]
        exact Effect.observe rfl rfl rfl ⟨by simp, by simp, by simp⟩
  | wait current =>
      obtain ⟨rfl, rfl⟩ := Prod.mk.inj (Option.some.inj h)
      split
      · exact Effect.observe rfl rfl rfl ⟨by simp, by simp, by simp⟩
      · exact Effect.observe rfl rfl rfl ⟨by simp, by simp, by simp⟩
  | tryLoad =>
      obtain ⟨rfl, rfl⟩ := Prod.mk.inj (Option.some.inj h)
      exact Effect.observe rfl rfl rfl ⟨by simp, by simp, by simp⟩
  | idle => cases h
  | tried result => cases h
  | waited => cases h
  | aborted => cases h

/-! ## The invariant -/

variable [Fintype ι] {expected : ℕ} {s s' : State ι}

/-- The sum of the updates that are still to be subtracted. -/
def pending (pc : ι → Point) : ℕ := total (fun pc => pc.update.toNat) pc

/-- The number of threads that are about to notify. -/
def notifying (pc : ι → Point) : ℕ := total Point.notifying pc

/-- The counter is the initial count without the completed updates, the other
updates are still pending, and a notification has been issued or is being
issued exactly when the count has run out. -/
structure Counted (expected : ℕ) (s : State ι) : Prop where
  counter_eq : s.counter = expected - s.completed
  completed_nonneg : 0 ≤ s.completed
  begun_eq : s.begun = s.completed + pending s.pc
  begun_le : s.begun ≤ expected
  sound : ∀ t, Sound s.counter (s.pc t)
  notified_eq : s.notified + notifying s.pc =
    if s.counter = 0 ∧ 0 < expected then 1 else 0

namespace Counted

omit [DecidableEq ι] in
theorem counter_nonneg (h : Counted expected s) : 0 ≤ s.counter := by
  have hcounter := h.counter_eq
  have hbegun := h.begun_eq
  have hle := h.begun_le
  omega

omit [DecidableEq ι] in
/-- What is pending is still in the counter: the second assertion of
`count_down`. -/
theorem update_le (h : Counted expected s) {t : ι} {update : ℤ} {arrive : Bool}
    (hpc : s.pc t = .fetchSub update arrive) : update ≤ s.counter := by
  have hpending : (s.pc t).update.toNat ≤ pending s.pc :=
    le_total (fun pc => pc.update.toNat) s.pc t
  rw [hpc] at hpending
  have hcounter := h.counter_eq
  have hbegun := h.begun_eq
  have hle := h.begun_le
  simp only [Point.update] at hpending
  omega

omit [DecidableEq ι] in
/-- Before an update is subtracted the latch has not run out, and nobody has
notified. -/
theorem counter_pos (h : Counted expected s) {t : ι} {update : ℤ} {arrive : Bool}
    (hpc : s.pc t = .fetchSub update arrive) : 0 < s.counter :=
  ((h.sound t).update_pos update arrive hpc).trans_le (h.update_le hpc)

omit [DecidableEq ι] in
theorem notified_eq_zero (h : Counted expected s) (hpos : 0 < s.counter) :
    s.notified + notifying s.pc = 0 := by
  rw [h.notified_eq, if_neg]
  rintro ⟨hzero, -⟩
  exact hpos.ne' hzero

end Counted

omit [DecidableEq ι] in
theorem counted_start : Counted expected (start ι expected) where
  counter_eq := by simp [start]
  completed_nonneg := by simp [start]
  begun_eq := by simp [start, pending, total, Point.update]
  begun_le := by simp [start]
  sound _ := ⟨by simp [start], by simp [start], by simp [start]⟩
  notified_eq := by
    have hrunning : ¬ ((start ι expected).counter = 0 ∧ 0 < expected) := by
      simp only [start]
      omega
    rw [if_neg hrunning]
    simp [start, notifying, total, Point.notifying]

/-! ## Steps -/

theorem pending_update (pc : ι → Point) (t : ι) (p : Point) :
    pending (Function.update pc t p) + (pc t).update.toNat =
      pending pc + p.update.toNat :=
  total_update (fun pc => pc.update.toNat) pc t p

theorem notifying_update (pc : ι → Point) (t : ι) (p : Point) :
    notifying (Function.update pc t p) + (pc t).notifying =
      notifying pc + p.notifying :=
  total_update Point.notifying pc t p

omit [Fintype ι] in
/-- The counter may change while no thread has returned. -/
theorem sound_update {counter : ℤ} {t : ι} {pc : Point}
    (h : ∀ u, Sound s.counter (s.pc u)) (hpc : Sound counter pc)
    (hcounter : s.counter = 0 → counter = 0) (u : ι) :
    Sound counter (Function.update s.pc t pc u) := by
  refine prop_update hpc ⟨(h u).update_pos, (h u).not_aborted, ?_⟩
  intro hreturned
  exact hcounter ((h u).returned_zero hreturned)

omit [DecidableEq ι] [Fintype ι] in
/-- The beginning of a call with a positive update. -/
theorem enter_spec {t : ι} {call : Call} (h : (Label.call t call).Positive)
    (counter : ℤ) :
    (enter call).update = call.update ∧ 0 ≤ call.update ∧
      (enter call).notifying = 0 ∧ Sound counter (enter call) := by
  have hcount : ∀ (update : ℤ) (arrive : Bool), 0 < update →
      Sound counter (.fetchSub update arrive) := by
    intro update arrive hpos
    refine ⟨?_, Point.noConfusion, by simp⟩
    rintro update' arrive' ⟨⟩
    exact hpos
  cases call with
  | countDown update =>
      have hpos : 0 < update := h
      rw [enter, countDown, if_pos hpos]
      exact ⟨rfl, hpos.le, rfl, hcount update false hpos⟩
  | arriveAndWait update =>
      have hpos : 0 < update := h
      rw [enter, countDown, if_pos hpos]
      exact ⟨rfl, hpos.le, rfl, hcount update true hpos⟩
  | tryWait =>
      exact ⟨rfl, le_rfl, rfl, by simp [enter], by simp [enter], by simp [enter]⟩
  | wait =>
      exact ⟨rfl, le_rfl, rfl, by simp [enter], by simp [enter], by simp [enter]⟩

/-- A step that does not subtract. -/
theorem counted_move {t : ι} {pc : Point} (h : Counted expected s)
    (hfrom : (s.pc t).update = 0) (hupdate : 0 ≤ pc.update)
    (hnotifying : pc.notifying = 0) (hsound : Sound s.counter pc)
    (hle : s.begun + pc.update ≤ expected) :
    Counted expected { s with
      pc := Function.update s.pc t pc
      begun := s.begun + pc.update
      notified := s.notified + (s.pc t).notifying } := by
  have hpending := pending_update s.pc t pc
  have hnotify := notifying_update s.pc t pc
  rw [hfrom, Int.toNat_zero] at hpending
  rw [hnotifying] at hnotify
  constructor
  · exact h.counter_eq
  · exact h.completed_nonneg
  · have hbegun := h.begun_eq
    dsimp only
    omega
  · exact hle
  · exact sound_update h.sound hsound id
  · rw [← h.notified_eq]
    dsimp only
    omega

/-- A step that subtracts an update; it leads to the notification exactly when
nothing is left. -/
theorem counted_fetchSub {t : ι} {update : ℤ} {arrive : Bool} {pc : Point}
    (h : Counted expected s) (hpc : s.pc t = .fetchSub update arrive)
    (hupdate : pc.update = 0) (hsound : Sound (s.counter - update) pc)
    (hnotifying : pc.notifying = if s.counter - update = 0 then 1 else 0) :
    Counted expected { s with
      counter := s.counter - update
      pc := Function.update s.pc t pc
      completed := s.completed + update } := by
  have hpending := pending_update s.pc t pc
  have hnotify := notifying_update s.pc t pc
  rw [hpc, hupdate, Int.toNat_zero, Point.update_fetchSub] at hpending
  rw [hpc, Point.notifying_fetchSub] at hnotify
  have hpos := (h.sound t).update_pos update arrive hpc
  have hcounter_pos := h.counter_pos hpc
  have hcounter := h.counter_eq
  have hcompleted := h.completed_nonneg
  have hbegun := h.begun_eq
  constructor
  · dsimp only
    omega
  · dsimp only
    omega
  · dsimp only
    omega
  · exact h.begun_le
  · exact sound_update h.sound hsound fun hzero =>
      absurd hzero hcounter_pos.ne'
  · have hnone := h.notified_eq_zero hcounter_pos
    have hexpected : 0 < expected := by omega
    simp only [hexpected, and_true]
    rw [← hnotifying]
    omega

theorem counted_step {l : Label ι} (h : Counted expected s)
    (hcond : Counting expected s l) (hstep : step s l = some s') :
    Counted expected s' := by
  rcases step_cases hstep with ⟨t, call, rfl, hidle, rfl⟩ |
    ⟨t, counter, pc, rfl, hnext, rfl⟩ | ⟨t, rfl, hreturned, rfl⟩
  · obtain ⟨hwithin, hpositive⟩ := hcond
    obtain ⟨hupdate, hnonneg, hnotifying, hsound⟩ :=
      enter_spec hpositive s.counter
    rw [← hupdate] at hnonneg
    have hle : s.begun + (enter call).update ≤ expected := by
      rw [hupdate]
      exact hwithin
    have hmove := counted_move h (by rw [hidle]; rfl) hnonneg hnotifying hsound hle
    rwa [hidle, hupdate] at hmove
  · have heffect := effect_of_next hnext
    generalize hpc : s.pc t = p at heffect
    cases heffect with
    | last update arrive hcounter =>
        have hsound : Sound (s.counter - update) (.notifyAll arrive) :=
          ⟨by simp, by simp, by simp⟩
        have hzero : s.counter - update = 0 := sub_eq_zero.mpr hcounter
        have hfetch := counted_fetchSub h hpc rfl hsound (by rw [if_pos hzero]; rfl)
        rwa [hzero] at hfetch
    | count update arrive hlt =>
        obtain ⟨hupdate, hnotifying, hsound⟩ :=
          afterCountDown_spec arrive (s.counter - update)
        refine counted_fetchSub h hpc hupdate hsound ?_
        rw [if_neg (sub_pos.mpr hlt).ne', hnotifying]
    | fail update arrive hlt => exact absurd (h.update_le hpc) (not_le.mpr hlt)
    | observe hupdate hupdate' hnotifying hsound =>
        have hmove := counted_move h (by rw [hpc, hupdate]) hupdate'.ge hnotifying
          hsound (by rw [hupdate', add_zero]; exact h.begun_le)
        rw [hupdate', add_zero, hpc] at hmove
        rwa [hupdate, add_zero]
  · have hpoint : (s.pc t).update = 0 ∧ (s.pc t).notifying = 0 := by
      generalize s.pc t = pc at hreturned
      cases pc <;> first | exact ⟨rfl, rfl⟩ | cases hreturned
    have hmove := @counted_move _ _ _ _ _ t .idle h hpoint.1 le_rfl rfl
      ⟨by simp, by simp, by simp⟩ (by simpa using h.begun_le)
    rwa [hpoint.2, Point.update_idle, add_zero] at hmove

theorem counted_of_reachable
    (h : (system ι expected).Reachable (Counting expected) s) :
    Counted expected s := by
  refine h.invariant ?_ ?_
  · rintro s rfl
    exact counted_start
  · intro s l s' hcounted hcond hstep
    exact counted_step hcounted hcond hstep

/-! ## Running out -/

/-- The step that takes the counter to zero is the last subtraction, and its
thread goes on to notify. -/
theorem runs_out_step {l : Label ι} (h : Counted expected s)
    (hstep : step s l = some s') (hpos : s.counter ≠ 0) (hzero : s'.counter = 0) :
    ∃ t update arrive, l = .step t ∧ s.pc t = .fetchSub update arrive ∧
      s'.pc t = .notifyAll arrive := by
  rcases step_cases hstep with ⟨t, call, rfl, hidle, rfl⟩ |
    ⟨t, counter, pc, rfl, hnext, rfl⟩ | ⟨t, rfl, hreturned, rfl⟩
  · exact absurd hzero hpos
  · have heffect := effect_of_next hnext
    generalize hpc : s.pc t = p at heffect
    cases heffect with
    | last update arrive hcounter =>
        refine ⟨t, update, arrive, rfl, hpc, ?_⟩
        exact Function.update_self t _ s.pc
    | count update arrive hlt => exact absurd hzero (sub_pos.mpr hlt).ne'
    | fail update arrive hlt => exact absurd (h.update_le hpc) (not_le.mpr hlt)
    | observe => exact absurd hzero hpos
  · exact absurd hzero hpos

/-- Nothing is left to subtract from a counter of zero. -/
theorem zero_step {l : Label ι} (h : Counted expected s)
    (hstep : step s l = some s') (hzero : s.counter = 0) : s'.counter = 0 := by
  rcases step_cases hstep with ⟨t, call, rfl, hidle, rfl⟩ |
    ⟨t, counter, pc, rfl, hnext, rfl⟩ | ⟨t, rfl, hreturned, rfl⟩
  · exact hzero
  · have heffect := effect_of_next hnext
    generalize hpc : s.pc t = p at heffect
    cases heffect with
    | last update arrive hcounter => rfl
    | count update arrive hlt => exact absurd hzero (h.counter_pos hpc).ne'
    | fail update arrive hlt => exact absurd hzero (h.counter_pos hpc).ne'
    | observe => exact hzero
  · exact hzero

theorem zero_of_path {ls : List (Label ι)} (h : Counted expected s)
    (hpath : (system ι expected).Path (Counting expected) s ls s')
    (hzero : s.counter = 0) : s'.counter = 0 := by
  have hboth : Counted expected s' ∧ s'.counter = 0 := by
    refine hpath.invariant (P := fun s => Counted expected s ∧ s.counter = 0)
      ?_ ⟨h, hzero⟩
    rintro s l s' ⟨hcounted, hzero⟩ hcond hstep
    exact ⟨counted_step hcounted hcond hstep, zero_step hcounted hstep hzero⟩
  exact hboth.2

/-- In every run with positive updates that sum to at most the initial count,
the counter is the initial count without the completed updates, which are those
of all calls made but for the ones still to be subtracted; no assertion fails,
nobody is let through before the updates have reached the initial count, a
counter of zero stays, and the `count_down` that reaches zero, and no other,
notifies. -/
theorem latch_counts (expected : ℕ)
    (h : (system ι expected).Reachable (Counting expected) s) :
    s.counter = expected - s.completed ∧ s.begun = s.completed + pending s.pc ∧
    0 ≤ s.counter ∧
    (∀ t, s.pc t ≠ .aborted) ∧
    (∀ t, s.pc t = .tried true ∨ s.pc t = .waited → s.completed = expected) ∧
    (∀ ls s', (system ι expected).Path (Counting expected) s ls s' →
      s.counter = 0 → s'.counter = 0) ∧
    s.notified + notifying s.pc =
      (if s.counter = 0 ∧ 0 < expected then 1 else 0) ∧
    ∀ l s', Counting expected s l → step s l = some s' → s.counter ≠ 0 →
      s'.counter = 0 →
      ∃ t update arrive, l = .step t ∧ s.pc t = .fetchSub update arrive ∧
        s'.pc t = .notifyAll arrive := by
  have hcounted := counted_of_reachable h
  refine ⟨hcounted.counter_eq, hcounted.begun_eq, hcounted.counter_nonneg, ?_, ?_,
    ?_, hcounted.notified_eq, ?_⟩
  · intro t
    exact (hcounted.sound t).not_aborted
  · intro t hreturned
    have hzero := (hcounted.sound t).returned_zero hreturned
    have hcounter := hcounted.counter_eq
    omega
  · intro ls s' hpath hzero
    exact zero_of_path hcounted hpath hzero
  · intro l s' hcond hstep hpos hzero
    exact runs_out_step hcounted hstep hpos hzero

/-- One thread counts a latch of three down by two while another arrives and
waits. -/
theorem latch_counts_three :
    ∃ s : State (Fin 2),
      (system (Fin 2) 3).exec (Counting 3) (start (Fin 2) 3)
        [.call 0 (.countDown 2), .call 1 (.arriveAndWait 1), .step 1, .step 1,
          .step 0, .step 0, .step 1, .step 1] = some s ∧
      s.pc 1 = .waited ∧ s.completed = 3 ∧ s.begun = 3 + pending s.pc := by
  obtain ⟨s, hs, hpc⟩ : ∃ s : State (Fin 2),
      (system (Fin 2) 3).exec (Counting 3) (start (Fin 2) 3)
        [.call 0 (.countDown 2), .call 1 (.arriveAndWait 1), .step 1, .step 1,
          .step 0, .step 0, .step 1, .step 1] = some s ∧ s.pc 1 = .waited :=
    ⟨_, rfl, by decide⟩
  obtain ⟨-, hbegun, -, -, hreturned, -⟩ :=
    latch_counts 3 (System.reachable_of_exec rfl hs)
  have hcompleted := hreturned 1 (Or.inr hpc)
  rw [hcompleted] at hbegun
  exact ⟨s, hs, hpc, hcompleted, hbegun⟩

/-- An update of zero fails the first assertion, although the updates sum to
less than the initial count. -/
theorem latch_not_counts_zero :
    ¬ ∀ s, (system (Fin 1) 1).Reachable (WithinExpected 1) s →
      ∀ t, s.pc t ≠ .aborted := by
  intro h
  obtain ⟨s, hs, hpc⟩ : ∃ s : State (Fin 1),
      (system (Fin 1) 1).exec (WithinExpected 1) (start (Fin 1) 1)
        [.call 0 (.countDown 0)] = some s ∧ s.pc 0 = .aborted :=
    ⟨_, rfl, by decide⟩
  exact h s (System.reachable_of_exec rfl hs) 0 hpc

end Libhipcxx.Latch
