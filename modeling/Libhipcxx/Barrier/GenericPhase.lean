import Libhipcxx.Barrier.Generic

/-!
# Phases of the generic barrier

The stage of the completing thread determines the three atomics from the
ledger.  While a thread is completing, every arrival of the phase has been
counted, so nothing else is on its way and no other thread can change the
expected or the arrived count.
-/

namespace Libhipcxx.Barrier.Generic

open Transition Threads

/-- The arrived count: taken down by the arrivals counted, until the completing
thread restores it. -/
def arrivedValue (g : Ledger) : Option Stage → ℤ
  | some .flipping => g.quota - g.drops
  | _ => g.quota - g.counted

/-- The completions run: one for each phase ended, and that of this phase once
the completing thread has passed it. -/
def completionsValue (g : Ledger) : Option Stage → ℕ
  | some .restoring | some .flipping => g.phaseNo + 1
  | _ => g.phaseNo

/-- The arrival has been counted in the phase it was issued to, and the token
is that of this phase. -/
structure Counted (phaseNo : ℕ) (a : Arrival) (token : Bool) : Prop where
  inPhase : a.issuedIn = a.countedIn
  token_eq : token = parity a.countedIn
  le_phaseNo : a.countedIn ≤ phaseNo

theorem Counted.mono {phaseNo phaseNo' : ℕ} {a : Arrival} {token : Bool}
    (h : Counted phaseNo a token) (hle : phaseNo ≤ phaseNo') :
    Counted phaseNo' a token :=
  ⟨h.inPhase, h.token_eq, Nat.le_trans h.le_phaseNo hle⟩

theorem parity_succ (k : ℕ) : parity (k + 1) = !parity k := by
  unfold parity
  rcases Nat.mod_two_eq_zero_or_one k with hk | hk
  · simp [hk, Nat.add_mod]
  · simp [hk, Nat.add_mod]

variable {ι : Type}

/-- The arrival on its way belongs to the current phase. -/
def Issued (phaseNo : ℕ) (a : Arrival) : Prop :=
  a.issuedIn = phaseNo

/-- The thread is not the completing one. -/
def Apart (closing : Option (ι × Stage)) (t : ι) : Prop :=
  ∀ stage, closing ≠ some (t, stage)

/-- What a thread's point says of the phase, the expected count, the
completing thread and the thread's arrival. -/
def Local (phaseNo : ℕ) (expected : ℤ) (closing : Option (ι × Stage)) (t : ι)
    (a : Arrival) : Pc → Prop
  | .idle => Apart closing t
  | .dropExpected => Apart closing t ∧ Issued phaseNo a
  | .loadPhase update => Apart closing t ∧ Issued phaseNo a ∧ 0 < update
  | .fetchSub update oldPhase =>
      Apart closing t ∧ Issued phaseNo a ∧ 0 < update ∧
        oldPhase = parity phaseNo
  | .loadExpected oldPhase result =>
      Counted phaseNo a oldPhase ∧
        (result ≠ 0 ∧ Apart closing t ∨
          result = 0 ∧ closing = some (t, .counted) ∧ a.countedIn = phaseNo)
  | .completion oldPhase newExpected =>
      Counted phaseNo a oldPhase ∧ closing = some (t, .completing) ∧
        a.countedIn = phaseNo ∧ newExpected = expected
  | .storeArrived oldPhase newExpected =>
      Counted phaseNo a oldPhase ∧ closing = some (t, .restoring) ∧
        a.countedIn = phaseNo ∧ newExpected = expected
  | .storePhase oldPhase =>
      Counted phaseNo a oldPhase ∧ closing = some (t, .flipping) ∧
        a.countedIn = phaseNo
  | .done token => Counted phaseNo a token ∧ Apart closing t
  | .waiting token k =>
      token = parity k ∧ k ≤ phaseNo ∧ Apart closing t

theorem Apart.of_iff {closing closing' : Option (ι × Stage)} {t : ι}
    (h : Apart closing t)
    (hiff : ∀ stage, closing' = some (t, stage) ↔ closing = some (t, stage)) :
    Apart closing' t := by
  intro stage hstage
  exact h stage ((hiff stage).mp hstage)

/-- A step of another thread that keeps the phase. -/
theorem local_other {phaseNo : ℕ} {expected expected' : ℤ}
    {closing closing' : Option (ι × Stage)} {t : ι} {a : Arrival} {pc : Pc}
    (h : Local phaseNo expected closing t a pc)
    (hclosing : ∀ stage,
      closing' = some (t, stage) ↔ closing = some (t, stage))
    (hexpected : expected' = expected ∨ closing = none) :
    Local phaseNo expected' closing' t a pc := by
  cases pc with
  | idle => exact Apart.of_iff h hclosing
  | dropExpected => exact ⟨h.1.of_iff hclosing, h.2⟩
  | loadPhase update => exact ⟨h.1.of_iff hclosing, h.2⟩
  | fetchSub update oldPhase => exact ⟨h.1.of_iff hclosing, h.2⟩
  | loadExpected oldPhase result =>
      obtain ⟨hcounted, ⟨hresult, hapart⟩ | ⟨hresult, hstage, hphase⟩⟩ := h
      · exact ⟨hcounted, Or.inl ⟨hresult, hapart.of_iff hclosing⟩⟩
      · exact ⟨hcounted, Or.inr ⟨hresult, (hclosing _).mpr hstage, hphase⟩⟩
  | completion oldPhase newExpected =>
      obtain ⟨hcounted, hstage, hphase, hnew⟩ := h
      rcases hexpected with rfl | hnone
      · exact ⟨hcounted, (hclosing _).mpr hstage, hphase, hnew⟩
      · rw [hnone] at hstage
        cases hstage
  | storeArrived oldPhase newExpected =>
      obtain ⟨hcounted, hstage, hphase, hnew⟩ := h
      rcases hexpected with rfl | hnone
      · exact ⟨hcounted, (hclosing _).mpr hstage, hphase, hnew⟩
      · rw [hnone] at hstage
        cases hstage
  | storePhase oldPhase =>
      obtain ⟨hcounted, hstage, hphase⟩ := h
      exact ⟨hcounted, (hclosing _).mpr hstage, hphase⟩
  | done token => exact ⟨h.1, h.2.of_iff hclosing⟩
  | waiting token k => exact ⟨h.1, h.2.1, h.2.2.of_iff hclosing⟩

/-- The flip made by the completing thread, seen by a thread with nothing on
its way. -/
theorem local_close {phaseNo : ℕ} {expected : ℤ} {t u : ι} {stage : Stage}
    {a : Arrival} {pc : Pc}
    (h : Local phaseNo expected (some (t, stage)) u a pc) (hu : u ≠ t)
    (hpc : inFlight pc = 0) : Local (phaseNo + 1) expected none u a pc := by
  have hnone : Apart (none : Option (ι × Stage)) u := fun _ h => by cases h
  have hother (st : Stage) : some (t, stage) ≠ some (u, st) := by
    intro heq
    cases heq
    exact hu rfl
  cases pc with
  | idle => exact hnone
  | dropExpected => cases hpc
  | loadPhase update => exact absurd hpc (Nat.ne_of_gt h.2.2)
  | fetchSub update oldPhase => exact absurd hpc (Nat.ne_of_gt h.2.2.1)
  | loadExpected oldPhase result =>
      obtain ⟨hcounted, ⟨hresult, -⟩ | ⟨-, hstage, -⟩⟩ := h
      · exact ⟨hcounted.mono (Nat.le_succ _), Or.inl ⟨hresult, hnone⟩⟩
      · exact absurd hstage (hother _)
  | completion oldPhase newExpected => exact absurd h.2.1 (hother _)
  | storeArrived oldPhase newExpected => exact absurd h.2.1 (hother _)
  | storePhase oldPhase => exact absurd h.2.1 (hother _)
  | done token => exact ⟨h.1.mono (Nat.le_succ _), hnone⟩
  | waiting token k => exact ⟨h.1, Nat.le_succ_of_le h.2.1, hnone⟩

/-- The completing thread moves on by one stage and keeps the ledger. -/
theorem closing_advance {t : ι} {stage stage' : Stage} (u : ι) (hu : u ≠ t)
    (st : Stage) :
    (some (t, stage') : Option (ι × Stage)) = some (u, st) ↔
      (some (t, stage) : Option (ι × Stage)) = some (u, st) := by
  constructor
  · intro heq
    cases heq
    exact absurd rfl hu
  · intro heq
    cases heq
    exact absurd rfl hu

/-- How far the completing thread has come, if there is one. -/
def State.stage (s : State ι) : Option Stage := s.closing.map Prod.snd

theorem threads_update [DecidableEq ι] {s : State ι} {t : ι} {expected' : ℤ}
    {closing' : Option (ι × Stage)} {a : Arrival} {pc : Pc}
    (h : ∀ u, Local s.ledger.phaseNo s.expected s.closing u (s.arrival u)
      (s.pc u))
    (hclosing : ∀ u, u ≠ t → ∀ stage,
      closing' = some (u, stage) ↔ s.closing = some (u, stage))
    (hexpected : expected' = s.expected ∨ s.closing = none)
    (hpc : Local s.ledger.phaseNo expected' closing' t a pc) (u : ι) :
    Local s.ledger.phaseNo expected' closing' u
      (Function.update s.arrival t a u) (Function.update s.pc t pc u) := by
  by_cases hu : u = t
  · subst hu
    rw [Function.update_self, Function.update_self]
    exact hpc
  · rw [Function.update_of_ne hu, Function.update_of_ne hu]
    exact local_other (h u) (hclosing u hu) hexpected

theorem threads_setPc [DecidableEq ι] {s : State ι} {t : ι} {expected' : ℤ}
    {closing' : Option (ι × Stage)} {pc : Pc}
    (h : ∀ u, Local s.ledger.phaseNo s.expected s.closing u (s.arrival u)
      (s.pc u))
    (hclosing : ∀ u, u ≠ t → ∀ stage,
      closing' = some (u, stage) ↔ s.closing = some (u, stage))
    (hexpected : expected' = s.expected ∨ s.closing = none)
    (hpc : Local s.ledger.phaseNo expected' closing' t (s.arrival t) pc)
    (u : ι) :
    Local s.ledger.phaseNo expected' closing' u (s.arrival u)
      (Function.update s.pc t pc u) := by
  have hupdate := threads_update h hclosing hexpected hpc u
  rwa [Function.update_eq_self] at hupdate

variable [Fintype ι] {s : State ι} {t : ι}

/-- The invariant of disciplined runs. -/
structure Inv (s : State ι) : Prop where
  sound : s.ledger.Sound (total inFlight s.pc) (total dropping s.pc)
  open_iff : s.closing = none ↔
    s.ledger.counted < s.ledger.quota ∨ s.ledger.quota = 0
  phase_eq : s.phase = parity s.ledger.phaseNo
  expected_eq : s.expected = s.ledger.quota - s.ledger.drops
  arrived_eq : s.arrived = arrivedValue s.ledger s.stage
  completions_eq : s.completions = completionsValue s.ledger s.stage
  threads : ∀ t, Local s.ledger.phaseNo s.expected s.closing t (s.arrival t)
    (s.pc t)

theorem inv_start (n : ℕ) : Inv (start ι n) := by
  refine ⟨?_, ?_, rfl, ?_, ?_, rfl, ?_⟩
  · have hflight : total inFlight (start ι n).pc = 0 :=
      total_const_zero _ _ fun _ => rfl
    have hdropping : total dropping (start ι n).pc = 0 :=
      total_const_zero _ _ fun _ => rfl
    rw [hflight, hdropping]
    exact Ledger.sound_start n
  · show none = none ↔ 0 < n ∨ n = 0
    simp only [true_iff]
    omega
  · simp [start, Ledger.start]
  · simp [start, Ledger.start, State.stage, arrivedValue]
  · intro t stage h
    cases h

/-- While a thread is completing, the count is the quota and nothing is on its
way. -/
theorem full_of_closing (h : Inv s) (hsome : s.closing ≠ none) :
    s.ledger.counted = s.ledger.quota ∧ 0 < s.ledger.quota ∧
      total inFlight s.pc = 0 := by
  have hopen := (not_congr h.open_iff).mp hsome
  have hle := h.sound.counted_le
  omega

/-- Another stage of the completing thread leaves the phase just as full. -/
theorem open_of_closing (h : Inv s) {before : ι × Stage}
    (hclosing : s.closing = some before) (after : ι × Stage) :
    some after = none ↔
      s.ledger.counted < s.ledger.quota ∨ s.ledger.quota = 0 := by
  rw [← h.open_iff, hclosing]
  simp

theorem closing_none_of_inFlight (h : Inv s) (hpos : 0 < inFlight (s.pc t)) :
    s.closing = none := by
  by_contra hsome
  have hzero := (full_of_closing h hsome).2.2
  have hle := le_total inFlight s.pc t
  omega

/-- The arrived count before the restoration. -/
theorem arrived_of_stage (h : Inv s) (hstage : s.stage ≠ some .flipping) :
    s.arrived = s.ledger.quota - s.ledger.counted := by
  rw [h.arrived_eq]
  cases hs : s.stage with
  | none => rfl
  | some stage =>
      cases stage with
      | counted | completing | restoring => rfl
      | flipping => exact absurd hs hstage

theorem apart_of_idle (h : Inv s) (hpc : s.pc t = .idle) :
    Apart s.closing t := by
  have hlocal := h.threads t
  rwa [hpc] at hlocal

theorem counted_of_done (h : Inv s) {token : Bool}
    (hpc : s.pc t = .done token) :
    Counted s.ledger.phaseNo (s.arrival t) token ∧ Apart s.closing t := by
  have hlocal := h.threads t
  rwa [hpc] at hlocal

/-! ## One step -/

variable [DecidableEq ι]

/-- A thread moves, and nothing else changes. -/
theorem inv_setPc (h : Inv s) {pc : Pc}
    (hflight : inFlight pc = inFlight (s.pc t))
    (hdropping : dropping pc = dropping (s.pc t))
    (hpc : Local s.ledger.phaseNo s.expected s.closing t (s.arrival t) pc) :
    Inv (s.setPc t pc) :=
  ⟨h.sound.move hflight hdropping, h.open_iff, h.phase_eq,
    h.expected_eq, h.arrived_eq, h.completions_eq,
    threads_setPc h.threads (fun _ _ _ => Iff.rfl) (Or.inl rfl) hpc⟩

theorem inv_arrive (h : Inv s) (hidle : s.pc t = .idle) {update : ℕ}
    (hpos : 0 < update)
    (hquota : s.ledger.issued + update ≤ s.ledger.quota) :
    Inv (s.issue t update (.loadPhase update)) := by
  have hlocal := h.threads t
  rw [hidle] at hlocal
  refine ⟨h.sound.move_issue hquota ?_ ?_, h.open_iff, h.phase_eq,
    h.expected_eq, h.arrived_eq, h.completions_eq, ?_⟩
  · rw [hidle]
    exact (Nat.zero_add update).symm
  · rw [hidle]
    rfl
  · have hnew : Local s.ledger.phaseNo s.expected s.closing t
        ⟨update, s.ledger.phaseNo, 0⟩ (.loadPhase update) := ⟨hlocal, rfl, hpos⟩
    exact threads_update h.threads (fun _ _ _ => Iff.rfl) (Or.inl rfl) hnew

theorem inv_arriveAndDrop (h : Inv s) (hidle : s.pc t = .idle)
    (hquota : s.ledger.issued + 1 ≤ s.ledger.quota) :
    Inv (s.issue t 1 .dropExpected) := by
  have hlocal := h.threads t
  rw [hidle] at hlocal
  refine ⟨h.sound.move_issue_drop hquota ?_ ?_, h.open_iff, h.phase_eq,
    h.expected_eq, h.arrived_eq, h.completions_eq, ?_⟩
  · rw [hidle]
    rfl
  · rw [hidle]
    rfl
  · have hnew : Local s.ledger.phaseNo s.expected s.closing t
        ⟨1, s.ledger.phaseNo, 0⟩ .dropExpected := ⟨hlocal, rfl⟩
    exact threads_update h.threads (fun _ _ _ => Iff.rfl) (Or.inl rfl) hnew

theorem inv_dropExpected (h : Inv s) (hpc : s.pc t = .dropExpected) :
    Inv (s.dropExpected t) := by
  have hlocal := h.threads t
  have hnone : s.closing = none :=
    closing_none_of_inFlight (t := t) h (by rw [hpc]; decide)
  have hstage : s.stage = none := by rw [State.stage, hnone]; rfl
  rw [hpc] at hlocal
  refine ⟨h.sound.move_drop ?_ ?_, h.open_iff, h.phase_eq, ?_, ?_,
    h.completions_eq, ?_⟩
  · rw [hpc]
    rfl
  · rw [hpc]
    rfl
  · have hexpected := h.expected_eq
    simp only [State.dropExpected, Ledger.drop]
    omega
  · have harrived := h.arrived_eq
    rw [hstage] at harrived
    have hstage' : (s.dropExpected t).stage = none := hstage
    rw [hstage']
    exact harrived
  · exact threads_setPc h.threads (fun _ _ _ => Iff.rfl) (Or.inr hnone)
      ⟨hlocal.1, hlocal.2, Nat.one_pos⟩

theorem inv_loadPhase (h : Inv s) {update : ℕ}
    (hpc : s.pc t = .loadPhase update) :
    Inv (s.setPc t (.fetchSub update s.phase)) := by
  have hlocal := h.threads t
  rw [hpc] at hlocal
  refine inv_setPc h ?_ ?_ ⟨hlocal.1, hlocal.2.1, hlocal.2.2, h.phase_eq⟩
  · rw [hpc]
    rfl
  · rw [hpc]
    rfl

omit [DecidableEq ι] in
/-- An arrival on its way fits what its phase still expects. -/
theorem counted_add_le (h : Inv s) {update : ℕ} {oldPhase : Bool}
    (hpc : s.pc t = .fetchSub update oldPhase) :
    s.ledger.counted + update ≤ s.ledger.quota := by
  have hle := h.sound.counted_le
  have hthread := le_total inFlight s.pc t
  rw [hpc, inFlight] at hthread
  omega

theorem sound_fetchSub (h : Inv s) {update : ℕ} {oldPhase : Bool}
    (hpc : s.pc t = .fetchSub update oldPhase) :
    (s.ledger.count update).Sound
      (total inFlight (s.fetchSub t update oldPhase).pc)
      (total dropping (s.fetchSub t update oldPhase).pc) := by
  apply h.sound.move_count
  · rw [hpc]
    exact Nat.zero_add update
  · rw [hpc]
    rfl

/-- What a counted arrival leaves behind, up to the completing thread. -/
theorem inv_fetchSub (h : Inv s) {update : ℕ} {oldPhase : Bool}
    (hpc : s.pc t = .fetchSub update oldPhase) :
    Inv (s.fetchSub t update oldPhase) := by
  have hlocal := h.threads t
  rw [hpc] at hlocal
  obtain ⟨hapart, hissued, hpos, hold⟩ := hlocal
  have hnone : s.closing = none :=
    closing_none_of_inFlight (t := t) h (by rw [hpc]; exact hpos)
  have hstage : s.stage = none := by rw [State.stage, hnone]; rfl
  have harrived : s.arrived = s.ledger.quota - s.ledger.counted :=
    arrived_of_stage h (by rw [hstage]; simp)
  have hcounted := counted_add_le h hpc
  have hsound := sound_fetchSub h hpc
  have hnew : Counted s.ledger.phaseNo
      { s.arrival t with countedIn := s.ledger.phaseNo } oldPhase :=
    ⟨hissued, hold, Nat.le_refl _⟩
  by_cases hzero : s.arrived - update = 0
  · have hclosing : (s.fetchSub t update oldPhase).closing =
        some (t, .counted) := by simp only [State.fetchSub, if_pos hzero]
    have hstage' : (s.fetchSub t update oldPhase).stage = some .counted := by
      rw [State.stage, hclosing]
      rfl
    refine ⟨hsound, ?_, h.phase_eq, h.expected_eq, ?_, ?_, ?_⟩
    · rw [hclosing]
      simp only [State.fetchSub, Ledger.count, reduceCtorEq, false_iff]
      omega
    · rw [hstage']
      simp only [State.fetchSub, Ledger.count, arrivedValue]
      omega
    · rw [hstage']
      have hcompletions := h.completions_eq
      rwa [hstage] at hcompletions
    · rw [hclosing]
      refine threads_update h.threads ?_ (Or.inl rfl)
        ⟨hnew, Or.inr ⟨hzero, rfl, rfl⟩⟩
      intro u hu stage
      rw [hnone]
      constructor
      · intro heq
        cases heq
        exact absurd rfl hu
      · intro heq
        cases heq
  · have hclosing : (s.fetchSub t update oldPhase).closing = none := by
      simp only [State.fetchSub, if_neg hzero, hnone]
    have hstage' : (s.fetchSub t update oldPhase).stage = none := by
      rw [State.stage, hclosing]
      rfl
    refine ⟨hsound, ?_, h.phase_eq, h.expected_eq, ?_, ?_, ?_⟩
    · rw [hclosing]
      simp only [State.fetchSub, Ledger.count, true_iff]
      omega
    · rw [hstage']
      simp only [State.fetchSub, Ledger.count, arrivedValue]
      omega
    · rw [hstage']
      have hcompletions := h.completions_eq
      rwa [hstage] at hcompletions
    · rw [hclosing]
      refine threads_update h.threads ?_ (Or.inl rfl)
        ⟨hnew, Or.inl ⟨hzero, fun _ h => by cases h⟩⟩
      intro u _ stage
      rw [hnone]

theorem inv_loadExpected (h : Inv s) {oldPhase : Bool} {result : ℤ}
    (hpc : s.pc t = .loadExpected oldPhase result) :
    Inv (s.loadExpected t oldPhase result) := by
  have hlocal := h.threads t
  rw [hpc] at hlocal
  obtain ⟨hcounted, ⟨hresult, hapart⟩ | ⟨hresult, hclosing, hphase⟩⟩ := hlocal
  · rw [State.loadExpected, if_neg hresult]
    exact inv_setPc h (by rw [hpc]; rfl) (by rw [hpc]; rfl) ⟨hcounted, hapart⟩
  · rw [State.loadExpected, if_pos hresult]
    have hstage : s.stage = some .counted := by rw [State.stage, hclosing]; rfl
    have harrived := h.arrived_eq
    have hcompletions := h.completions_eq
    rw [hstage] at harrived hcompletions
    refine ⟨h.sound.move (by rw [hpc]; rfl) (by rw [hpc]; rfl), ?_,
      h.phase_eq, h.expected_eq, harrived, hcompletions, ?_⟩
    · exact open_of_closing h hclosing _
    · refine threads_setPc h.threads ?_ (Or.inl rfl)
        ⟨hcounted, rfl, hphase, rfl⟩
      rw [hclosing]
      exact closing_advance

theorem inv_completion (h : Inv s) {oldPhase : Bool} {newExpected : ℤ}
    (hpc : s.pc t = .completion oldPhase newExpected) :
    Inv (s.completion t oldPhase newExpected) := by
  have hlocal := h.threads t
  rw [hpc] at hlocal
  obtain ⟨hcounted, hclosing, hphase, hnew⟩ := hlocal
  have hstage : s.stage = some .completing := by rw [State.stage, hclosing]; rfl
  have harrived := h.arrived_eq
  have hcompletions := h.completions_eq
  rw [hstage] at harrived hcompletions
  refine ⟨h.sound.move (by rw [hpc]; rfl) (by rw [hpc]; rfl), ?_,
    h.phase_eq, h.expected_eq, harrived, ?_, ?_⟩
  · exact open_of_closing h hclosing _
  · exact congrArg (· + 1) hcompletions
  · refine threads_setPc h.threads ?_ (Or.inl rfl)
      ⟨hcounted, rfl, hphase, hnew⟩
    rw [hclosing]
    exact closing_advance

theorem inv_storeArrived (h : Inv s) {oldPhase : Bool} {newExpected : ℤ}
    (hpc : s.pc t = .storeArrived oldPhase newExpected) :
    Inv (s.storeArrived t oldPhase newExpected) := by
  have hlocal := h.threads t
  rw [hpc] at hlocal
  obtain ⟨hcounted, hclosing, hphase, hnew⟩ := hlocal
  have hstage : s.stage = some .restoring := by rw [State.stage, hclosing]; rfl
  have hcompletions := h.completions_eq
  rw [hstage] at hcompletions
  refine ⟨h.sound.move (by rw [hpc]; rfl) (by rw [hpc]; rfl), ?_,
    h.phase_eq, h.expected_eq, hnew.trans h.expected_eq, hcompletions, ?_⟩
  · exact open_of_closing h hclosing _
  · refine threads_setPc h.threads ?_ (Or.inl rfl) ⟨hcounted, rfl, hphase⟩
    rw [hclosing]
    exact closing_advance

/-- The phase ends: the ledger closes with nothing on its way. -/
theorem inv_storePhase (h : Inv s) {oldPhase : Bool}
    (hpc : s.pc t = .storePhase oldPhase) : Inv (s.storePhase t oldPhase) := by
  have hlocal := h.threads t
  rw [hpc] at hlocal
  obtain ⟨hcounted, hclosing, hphase⟩ := hlocal
  have hstage : s.stage = some .flipping := by rw [State.stage, hclosing]; rfl
  obtain ⟨hfull, hquota, hzero⟩ := full_of_closing h (by rw [hclosing]; simp)
  have harrived := h.arrived_eq
  have hcompletions := h.completions_eq
  have hexpected := h.expected_eq
  have hdrops := h.sound.drops_le_quota
  rw [hstage] at harrived hcompletions
  have hsound : s.ledger.Sound
      (total inFlight (Function.update s.pc t (.done oldPhase)))
      (total dropping (Function.update s.pc t (.done oldPhase))) :=
    h.sound.move (by rw [hpc]; rfl) (by rw [hpc]; rfl)
  refine ⟨?_, ?_, ?_, ?_, ?_, ?_, ?_⟩
  · refine (hsound.close hfull ?_).2
    refine Finset.sum_le_sum fun u _ => ?_
    cases Function.update s.pc t (.done oldPhase) u <;> simp [dropping, inFlight]
  · simp only [State.storePhase, Ledger.close, true_iff]
    omega
  · show (!oldPhase) = parity (s.ledger.phaseNo + 1)
    rw [parity_succ, hcounted.token_eq, hphase]
  · simp only [State.storePhase, State.setPc, Ledger.close]
    omega
  · simp only [State.storePhase, State.setPc, State.stage, Ledger.close,
      Option.map_none, arrivedValue] at harrived ⊢
    omega
  · exact hcompletions
  · intro u
    show Local (s.ledger.phaseNo + 1) s.expected none u (s.arrival u)
      (Function.update s.pc t (.done oldPhase) u)
    by_cases hu : u = t
    · subst hu
      rw [Function.update_self]
      exact ⟨hcounted.mono (Nat.le_succ _), fun _ h => by cases h⟩
    · rw [Function.update_of_ne hu]
      have hother := h.threads u
      rw [hclosing] at hother
      have hthread := le_total inFlight s.pc u
      exact local_close hother hu (by omega)

theorem inv_wait (h : Inv s) {u : ι} {token : Bool}
    (hpc : s.pc u = .done token) (hfree : t = u ∨ s.pc t = .idle) :
    Inv (s.setPc t (.waiting token (s.arrival u).countedIn)) := by
  have hcounted := (counted_of_done h hpc).1
  have hquiet : inFlight (s.pc t) = 0 ∧ dropping (s.pc t) = 0 ∧
      Apart s.closing t := by
    rcases hfree with rfl | hidle
    · rw [hpc]
      exact ⟨rfl, rfl, (counted_of_done h hpc).2⟩
    · rw [hidle]
      exact ⟨rfl, rfl, apart_of_idle h hidle⟩
  refine inv_setPc h hquiet.1.symm hquiet.2.1.symm ?_
  exact ⟨hcounted.token_eq, hcounted.le_phaseNo, hquiet.2.2⟩

theorem inv_step {l : Label ι} {s' : State ι} (h : Inv s)
    (hl : Disciplined s l) (hstep : step s l = some s') : Inv s' := by
  rcases step_cases hstep with ⟨t, update, rfl, hidle, rfl⟩ |
    ⟨t, rfl, hidle, rfl⟩ | ⟨t, hpc, rfl⟩ | ⟨t, update, hpc, rfl⟩ |
    ⟨t, update, oldPhase, hpc, rfl⟩ | ⟨t, oldPhase, result, hpc, rfl⟩ |
    ⟨t, oldPhase, newExpected, hpc, rfl⟩ |
    ⟨t, oldPhase, newExpected, hpc, rfl⟩ | ⟨t, oldPhase, hpc, rfl⟩ |
    ⟨t, u, token, hpc, hfree, rfl⟩ | ⟨t, token, k, hpc, hpoll⟩ |
    ⟨t, token, hpc, rfl⟩
  · exact inv_arrive h hidle hl.1 hl.2
  · exact inv_arriveAndDrop h hidle hl
  · exact inv_dropExpected h hpc
  · exact inv_loadPhase h hpc
  · exact inv_fetchSub h hpc
  · exact inv_loadExpected h hpc
  · exact inv_completion h hpc
  · exact inv_storeArrived h hpc
  · exact inv_storePhase h hpc
  · exact inv_wait h hpc hfree
  · rcases hpoll with ⟨-, rfl⟩ | rfl
    · have hlocal := h.threads t
      rw [hpc] at hlocal
      exact inv_setPc h (by rw [hpc]; rfl) (by rw [hpc]; rfl) hlocal.2.2
    · exact h
  · exact inv_setPc h (by rw [hpc]; rfl) (by rw [hpc]; rfl)
      (counted_of_done h hpc).2

/-- The invariant holds in every disciplined run, from any count. -/
theorem inv_of_reachable {n : ℕ} (h : (system ι n).Reachable Disciplined s) :
    Inv s := by
  refine h.invariant ?_ ?_
  · rintro s rfl
    exact inv_start n
  · intro s l s' hinv hl hstep
    exact inv_step hinv hl hstep

end Libhipcxx.Barrier.Generic
