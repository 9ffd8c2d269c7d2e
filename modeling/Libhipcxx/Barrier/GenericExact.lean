import Libhipcxx.Barrier.GenericPhase

/-!
# Exact phases of the generic barrier

The completion function runs once for each phase, after all its arrivals have
been counted and before any wait on one of its tokens returns; the arrived
count is restored before the phase flips; and a token is that of the phase its
arrival was counted in.

It runs at least once because a phase that has counted its quota has a thread
at one of the points before the flip, and the steps of that thread alone end
the phase.
-/

namespace Libhipcxx.Barrier.Generic

open Transition Threads

variable {ι : Type} [Fintype ι] {s : State ι}

/-- The points of the arrival that took the count to zero, up to the flip. -/
def Pc.Completing : Pc → Prop
  | .loadExpected _ result => result = 0
  | .completion _ _ | .storeArrived _ _ | .storePhase _ => True
  | _ => False

/-- What a generic barrier owes its users in a state. -/
structure PhaseExact (s : State ι) : Prop where
  phase : s.phase = parity s.ledger.phaseNo
  issued_eq : s.ledger.issued = s.ledger.counted + total inFlight s.pc
  completing : s.ledger.counted = s.ledger.quota → 0 < s.ledger.quota →
    ∃ t, (s.pc t).Completing
  completion_once : s.completions = s.ledger.phaseNo ∨
    s.completions = s.ledger.phaseNo + 1 ∧ s.ledger.counted = s.ledger.quota
  completion_after_all : ∀ t oldPhase newExpected,
    s.pc t = .completion oldPhase newExpected →
    s.completions = s.ledger.phaseNo ∧ s.ledger.counted = s.ledger.quota ∧
      ∀ u, inFlight (s.pc u) = 0
  restored_before_flip : ∀ t oldPhase, s.pc t = .storePhase oldPhase →
    s.completions = s.ledger.phaseNo + 1 ∧ s.arrived = s.expected ∧
      s.expected = s.ledger.quota - s.ledger.drops
  token : ∀ t token, s.pc t = .done token →
    token = parity (s.arrival t).countedIn ∧
      (s.arrival t).issuedIn = (s.arrival t).countedIn
  wait_after_completion : ∀ t token k, s.pc t = .waiting token k →
    token = parity k ∧
      (s.phase ≠ token → k < s.ledger.phaseNo ∧ k < s.completions)

theorem completionsValue_ge (g : Ledger) (stage : Option Stage) :
    g.phaseNo ≤ completionsValue g stage := by
  unfold completionsValue
  split <;> omega

theorem Inv.completion_once (h : Inv s) :
    s.completions = s.ledger.phaseNo ∨
      s.completions = s.ledger.phaseNo + 1 ∧
        s.ledger.counted = s.ledger.quota := by
  rw [h.completions_eq, State.stage]
  cases hclosing : s.closing with
  | none => exact Or.inl rfl
  | some p =>
      have hfull := (full_of_closing h (by rw [hclosing]; simp)).1
      obtain ⟨t, stage⟩ := p
      cases stage with
      | counted | completing => exact Or.inl rfl
      | restoring | flipping => exact Or.inr ⟨rfl, hfull⟩

theorem Inv.completion_after_all (h : Inv s) {t : ι} {oldPhase : Bool}
    {newExpected : ℤ} (hpc : s.pc t = .completion oldPhase newExpected) :
    s.completions = s.ledger.phaseNo ∧ s.ledger.counted = s.ledger.quota ∧
      ∀ u, inFlight (s.pc u) = 0 := by
  have hlocal := h.threads t
  rw [hpc] at hlocal
  have hclosing := hlocal.2.1
  obtain ⟨hfull, -, hzero⟩ := full_of_closing h (by rw [hclosing]; simp)
  refine ⟨?_, hfull, ?_⟩
  · rw [h.completions_eq, State.stage, hclosing]
    rfl
  · intro u
    have hle := le_total inFlight s.pc u
    omega

theorem Inv.restored_before_flip (h : Inv s) {t : ι} {oldPhase : Bool}
    (hpc : s.pc t = .storePhase oldPhase) :
    s.completions = s.ledger.phaseNo + 1 ∧ s.arrived = s.expected ∧
      s.expected = s.ledger.quota - s.ledger.drops := by
  have hlocal := h.threads t
  rw [hpc] at hlocal
  have hclosing := hlocal.2.1
  refine ⟨?_, ?_, h.expected_eq⟩
  · rw [h.completions_eq, State.stage, hclosing]
    rfl
  · rw [h.arrived_eq, h.expected_eq, State.stage, hclosing]
    rfl

/-- A poll that sees another phase than the token's sees a later one. -/
theorem Inv.wait_after_completion (h : Inv s) {t : ι} {token : Bool} {k : ℕ}
    (hpc : s.pc t = .waiting token k) :
    token = parity k ∧
      (s.phase ≠ token → k < s.ledger.phaseNo ∧ k < s.completions) := by
  have hlocal := h.threads t
  rw [hpc] at hlocal
  obtain ⟨htoken, hle, -⟩ := hlocal
  refine ⟨htoken, ?_⟩
  intro hphase
  have hne : k ≠ s.ledger.phaseNo := by
    rintro rfl
    exact hphase (h.phase_eq.trans htoken.symm)
  have hlt : k < s.ledger.phaseNo := by omega
  have hcompletions := completionsValue_ge s.ledger s.stage
  rw [← h.completions_eq] at hcompletions
  exact ⟨hlt, by omega⟩

omit [Fintype ι] in
/-- The thread that is not apart is at one of the completing points. -/
theorem completing_of_local {phaseNo : ℕ} {expected : ℤ} {t : ι} {stage : Stage}
    {a : Arrival} {pc : Pc}
    (h : Local phaseNo expected (some (t, stage)) t a pc) : pc.Completing := by
  have hself : ¬ Apart (some (t, stage)) t := fun hapart => hapart stage rfl
  cases pc with
  | idle => exact absurd h hself
  | dropExpected => exact absurd h.1 hself
  | loadPhase update => exact absurd h.1 hself
  | fetchSub update oldPhase => exact absurd h.1 hself
  | loadExpected oldPhase result =>
      obtain ⟨-, ⟨-, hapart⟩ | ⟨hresult, -, -⟩⟩ := h
      · exact absurd hapart hself
      · exact hresult
  | completion oldPhase newExpected => trivial
  | storeArrived oldPhase newExpected => trivial
  | storePhase oldPhase => trivial
  | done token => exact absurd h.2 hself
  | waiting token k => exact absurd h.2.2 hself

/-- A phase that has counted its quota has a thread that completes it. -/
theorem Inv.completing (h : Inv s) (hfull : s.ledger.counted = s.ledger.quota)
    (hquota : 0 < s.ledger.quota) : ∃ t, (s.pc t).Completing := by
  have hsome : s.closing ≠ none := by
    intro hnone
    have hopen := h.open_iff.mp hnone
    omega
  obtain ⟨⟨t, stage⟩, hclosing⟩ := Option.ne_none_iff_exists'.mp hsome
  have hlocal := h.threads t
  rw [hclosing] at hlocal
  exact ⟨t, completing_of_local hlocal⟩

theorem Inv.phaseExact (h : Inv s) : PhaseExact s where
  phase := h.phase_eq
  issued_eq := h.sound.issued_eq
  completing := h.completing
  completion_once := h.completion_once
  completion_after_all _ _ _ := h.completion_after_all
  restored_before_flip _ _ := h.restored_before_flip
  token := by
    intro t token hpc
    have hlocal := h.threads t
    rw [hpc] at hlocal
    exact ⟨hlocal.1.token_eq, hlocal.1.inPhase⟩
  wait_after_completion _ _ _ := h.wait_after_completion

/-- A step keeps the phase and may run the completion, or is the flip of the
completing thread. -/
theorem phase_step [DecidableEq ι] (h : Inv s) {l : Label ι} {s' : State ι}
    (hstep : step s l = some s') :
    (s'.ledger.phaseNo = s.ledger.phaseNo ∧ s'.phase = s.phase) ∨
      (∃ t oldPhase, s.pc t = .storePhase oldPhase ∧
        s'.ledger.phaseNo = s.ledger.phaseNo + 1 ∧
        s'.completions = s.completions ∧ s'.phase ≠ s.phase) := by
  rcases step_cases hstep with ⟨t, update, rfl, hidle, rfl⟩ |
    ⟨t, rfl, hidle, rfl⟩ | ⟨t, hpc, rfl⟩ | ⟨t, update, hpc, rfl⟩ |
    ⟨t, update, oldPhase, hpc, rfl⟩ | ⟨t, oldPhase, result, hpc, rfl⟩ |
    ⟨t, oldPhase, newExpected, hpc, rfl⟩ |
    ⟨t, oldPhase, newExpected, hpc, rfl⟩ | ⟨t, oldPhase, hpc, rfl⟩ |
    ⟨t, u, token, hpc, hfree, rfl⟩ | ⟨t, token, k, hpc, hpoll⟩ |
    ⟨t, token, hpc, rfl⟩
  · exact Or.inl ⟨rfl, rfl⟩
  · exact Or.inl ⟨rfl, rfl⟩
  · exact Or.inl ⟨rfl, rfl⟩
  · exact Or.inl ⟨rfl, rfl⟩
  · exact Or.inl ⟨rfl, rfl⟩
  · rw [State.loadExpected]
    split <;> exact Or.inl ⟨rfl, rfl⟩
  · exact Or.inl ⟨rfl, rfl⟩
  · exact Or.inl ⟨rfl, rfl⟩
  · refine Or.inr ⟨t, oldPhase, hpc, rfl, rfl, ?_⟩
    have hlocal := h.threads t
    rw [hpc] at hlocal
    have hold : oldPhase = s.phase := by
      rw [h.phase_eq, hlocal.1.token_eq, hlocal.2.2]
    rw [← hold]
    exact Bool.not_ne_self oldPhase
  · exact Or.inl ⟨rfl, rfl⟩
  · rcases hpoll with ⟨-, rfl⟩ | rfl
    · exact Or.inl ⟨rfl, rfl⟩
    · exact Or.inl ⟨rfl, rfl⟩
  · exact Or.inl ⟨rfl, rfl⟩

/-! ## The completing thread ends the phase -/

section Ends

variable [DecidableEq ι] {t : ι}

/-- Steps of the thread alone end the phase, with its completion run. -/
def EndsPhase (n : ℕ) (s : State ι) (t : ι) : Prop :=
  ∃ ls s', (∀ l ∈ ls, l = .step t) ∧
    System.Path (system ι n) Disciplined s ls s' ∧
    s'.ledger.phaseNo = s.ledger.phaseNo + 1 ∧
    s'.completions = s'.ledger.phaseNo

omit [Fintype ι] in
theorem EndsPhase.of_step {n : ℕ} {s' : State ι}
    (hstep : step s (.step t) = some s')
    (hsame : s'.ledger.phaseNo = s.ledger.phaseNo) (h : EndsPhase n s' t) :
    EndsPhase n s t := by
  obtain ⟨ls, s'', hlabels, hpath, hphaseNo, hcompletions⟩ := h
  have hone : System.Path (system ι n) Disciplined s [.step t] s' :=
    System.Path.single trivial hstep
  refine ⟨.step t :: ls, s'', ?_, hone.append hpath, ?_, hcompletions⟩
  · intro l hl
    rcases List.mem_cons.mp hl with rfl | hl
    · rfl
    · exact hlabels l hl
  · rw [hphaseNo, hsame]

theorem Inv.ends_storePhase (n : ℕ) (h : Inv s) {oldPhase : Bool}
    (hpc : s.pc t = .storePhase oldPhase) : EndsPhase n s t := by
  have hstep : step s (.step t) = some (s.storePhase t oldPhase) := by
    simp only [step, hpc]
  refine ⟨[.step t], s.storePhase t oldPhase, ?_,
    System.Path.single trivial hstep, rfl, ?_⟩
  · intro l hl
    exact List.mem_singleton.mp hl
  · exact (h.restored_before_flip hpc).1

theorem Inv.ends_storeArrived (n : ℕ) (h : Inv s) {oldPhase : Bool}
    {newExpected : ℤ} (hpc : s.pc t = .storeArrived oldPhase newExpected) :
    EndsPhase n s t := by
  have hstep : step s (.step t) = some (s.storeArrived t oldPhase newExpected) := by
    simp only [step, hpc]
  have hnext : (s.storeArrived t oldPhase newExpected).pc t = .storePhase oldPhase :=
    Function.update_self ..
  have hends := (inv_storeArrived h hpc).ends_storePhase n hnext
  exact hends.of_step hstep rfl

theorem Inv.ends_completion (n : ℕ) (h : Inv s) {oldPhase : Bool}
    {newExpected : ℤ} (hpc : s.pc t = .completion oldPhase newExpected) :
    EndsPhase n s t := by
  have hstep : step s (.step t) = some (s.completion t oldPhase newExpected) := by
    simp only [step, hpc]
  have hnext : (s.completion t oldPhase newExpected).pc t =
      .storeArrived oldPhase newExpected := Function.update_self ..
  have hends := (inv_completion h hpc).ends_storeArrived n hnext
  exact hends.of_step hstep rfl

/-- From each completing point on. -/
theorem Inv.endsPhase (n : ℕ) (h : Inv s) (hpc : (s.pc t).Completing) :
    EndsPhase n s t := by
  cases hat : s.pc t with
  | idle | dropExpected | loadPhase | fetchSub | done | waiting =>
      rw [hat] at hpc
      exact absurd hpc id
  | loadExpected oldPhase result =>
      rw [hat] at hpc
      obtain rfl : result = 0 := hpc
      have hstep : step s (.step t) =
          some (s.loadExpected t oldPhase 0) := by simp only [step, hat]
      have hnext : (s.loadExpected t oldPhase 0).pc t =
          .completion oldPhase s.expected := Function.update_self ..
      have hends := (inv_loadExpected h hat).ends_completion n hnext
      exact hends.of_step hstep rfl
  | completion oldPhase newExpected => exact h.ends_completion n hat
  | storeArrived oldPhase newExpected => exact h.ends_storeArrived n hat
  | storePhase oldPhase => exact h.ends_storePhase n hat

end Ends

/-- In every disciplined run of any threads, from any expected count, the
phases are exact in every state; the phase flips only by the store of the
completing thread, with one completion run since the last flip and the arrived
count restored; and the completing thread's own steps end the phase. -/
theorem generic_phases_exact (ι : Type) [Fintype ι] [DecidableEq ι] (n : ℕ)
    (s : State ι) (h : (system ι n).Reachable Disciplined s) :
    PhaseExact s ∧
      (∀ l s', Disciplined s l → step s l = some s' →
        (s'.ledger.phaseNo = s.ledger.phaseNo ∧ s'.phase = s.phase) ∨
        (s'.ledger.phaseNo = s.ledger.phaseNo + 1 ∧ s'.phase ≠ s.phase ∧
          s.completions = s.ledger.phaseNo + 1 ∧
          s'.completions = s'.ledger.phaseNo ∧
          s.arrived = s.ledger.quota - s.ledger.drops)) ∧
      ∀ t, (s.pc t).Completing → EndsPhase n s t := by
  have hinv := inv_of_reachable h
  refine ⟨hinv.phaseExact, ?_, fun t hpc => hinv.endsPhase n hpc⟩
  intro l s' hl hstep
  rcases phase_step hinv hstep with hsame |
    ⟨t, oldPhase, hpc, hphaseNo, hcompletions, hflip⟩
  · exact Or.inl hsame
  · obtain ⟨honce, hrestored, hexpected⟩ := hinv.restored_before_flip hpc
    refine Or.inr ⟨hphaseNo, hflip, honce, ?_, hrestored.trans hexpected⟩
    rw [hcompletions, honce, hphaseNo]

/-- One of two threads leaves; the other one completes the phase. -/
theorem generic_phases_exact_drop :
    ∃ s : State (Fin 2),
      (system (Fin 2) 2).exec Disciplined (start (Fin 2) 2)
        [.arriveAndDrop 0, .arrive 1 1, .step 0, .step 0, .step 1, .step 0,
          .step 1, .step 0, .step 1, .step 1, .step 1] = some s ∧
      s.pc 1 = .storePhase false ∧ s.arrived = 1 ∧ PhaseExact s ∧
      EndsPhase 2 s 1 := by
  obtain ⟨s, hs, hpc, harrived⟩ : ∃ s : State (Fin 2),
      (system (Fin 2) 2).exec Disciplined (start (Fin 2) 2)
        [.arriveAndDrop 0, .arrive 1 1, .step 0, .step 0, .step 1, .step 0,
          .step 1, .step 0, .step 1, .step 1, .step 1] = some s ∧
      s.pc 1 = .storePhase false ∧ s.arrived = 1 :=
    ⟨_, rfl, by decide, by decide⟩
  obtain ⟨hexact, -, hends⟩ :=
    generic_phases_exact (Fin 2) 2 s (System.reachable_of_exec rfl hs)
  refine ⟨s, hs, hpc, harrived, hexact, hends 1 ?_⟩
  rw [hpc]
  trivial

/-! ## Updates of zero -/

/-- The updates issued to a phase do not exceed its expected count, and may be
zero. -/
def WithinQuota {ι : Type} (s : State ι) : Label ι → Prop
  | .arrive _ update => s.ledger.issued + update ≤ s.ledger.quota
  | .arriveAndDrop _ => s.ledger.issued + 1 ≤ s.ledger.quota
  | _ => True

instance {ι : Type} (s : State ι) : (l : Label ι) → Decidable (WithinQuota s l)
  | .arrive _ _ => inferInstanceAs (Decidable (_ ≤ _))
  | .arriveAndDrop _ => inferInstanceAs (Decidable (_ ≤ _))
  | .wait _ _ | .step _ | .ret _ => inferInstanceAs (Decidable True)

/-- An update of zero that is taken off after the last arrival has been counted
also leaves zero, and the completion function runs twice for the phase. -/
theorem generic_phases_not_exact :
    ∃ s : State (Fin 2),
      (system (Fin 2) 1).exec WithinQuota (start (Fin 2) 1)
        [.arrive 0 1, .arrive 1 0, .step 0, .step 1, .step 0, .step 1, .step 0,
          .step 1, .step 0, .step 1] = some s ∧
      s.ledger.phaseNo = 0 ∧ s.ledger.issued = s.ledger.quota ∧
      s.completions = 2 ∧ ¬ PhaseExact s := by
  refine ⟨_, rfl, by decide, by decide, by decide, fun h => ?_⟩
  have honce := h.completion_once
  revert honce
  decide

end Libhipcxx.Barrier.Generic
