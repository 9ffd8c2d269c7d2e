import Libhipcxx.Barrier.GenericPhase
import Libhipcxx.Barrier.Phased

/-!
# The generic barrier as a phased barrier

An arrival is the subtraction from the arrived count, and a phase completes with
the store of the flipped phase.
-/

namespace Libhipcxx.Barrier.Generic

open Transition Threads

/-- The phase a wait is for. -/
def awaited : Pc → Option ℕ
  | .waiting _ k => some k
  | _ => none

/-- The actions of a step. -/
def actions {ι : Type} (s : State ι) : Label ι → List (Phased.Action ι)
  | .wait t u => [.await t (s.arrival u).countedIn]
  | .step t =>
      match s.pc t with
      | .dropExpected => [.leave]
      | .fetchSub update _ => [.arrive update]
      | .storePhase _ => [.complete]
      | .waiting token _ => if s.phase ≠ token then [.resume t] else []
      | _ => []
  | _ => []

/-- The state that users see. -/
def State.phased {ι : Type} (s : State ι) : Phased.State ι where
  phaseNo := s.ledger.phaseNo
  expected := s.ledger.quota
  arrived := s.ledger.counted
  leaving := s.ledger.drops
  awaits := awaited ∘ s.pc

variable {ι : Type} [DecidableEq ι] {s s' : State ι} {t : ι} {n : ℕ}

theorem awaits_update {pc : ι → Pc} {p : Pc} (h : awaited p = awaited (pc t)) :
    awaited ∘ Function.update pc t p = awaited ∘ pc := by
  rw [Function.comp_update, h]
  exact Function.update_eq_self t (awaited ∘ pc)

theorem phased_setPc {p : Pc} (h : awaited p = awaited (s.pc t)) :
    (s.setPc t p).phased = s.phased := by
  simp only [State.phased, State.setPc, awaits_update h]

variable [Fintype ι]

theorem run_dropExpected (h : Inv s) (hpc : s.pc t = .dropExpected) :
    Phased.Run n s.phased [.leave] (s.dropExpected t).phased := by
  apply Phased.Run.leave
  · -- the leaver itself is among the arrivals issued
    have hdropping := le_total dropping s.pc t
    have hdrops := h.sound.drops_le
    have hissued := h.sound.issued_le
    rw [hpc] at hdropping
    simp only [dropping] at hdropping
    simp only [State.phased]
    omega
  · have hawaits : awaited (.loadPhase 1) = awaited (s.pc t) := by
      rw [hpc]
      rfl
    simp only [State.phased, State.dropExpected, State.setPc, awaits_update hawaits,
      Phased.State.leave, Ledger.drop]

theorem run_fetchSub (h : Inv s) {update : ℕ} {oldPhase : Bool}
    (hpc : s.pc t = .fetchSub update oldPhase) :
    Phased.Run n s.phased [.arrive update] (s.fetchSub t update oldPhase).phased := by
  apply Phased.Run.arrive
  · exact counted_add_le h hpc
  · have hawaits : awaited (.loadExpected oldPhase (s.arrived - update)) = awaited (s.pc t) := by
      rw [hpc]
      rfl
    simp only [State.phased, State.fetchSub, State.setPc, awaits_update hawaits,
      Phased.State.arrive, Ledger.count]

theorem run_storePhase (h : Inv s) {oldPhase : Bool} (hpc : s.pc t = .storePhase oldPhase) :
    Phased.Run n s.phased [.complete] (s.storePhase t oldPhase).phased := by
  have hlocal := h.threads t
  rw [hpc] at hlocal
  have hsome : s.closing ≠ none := by
    rw [hlocal.2.1]
    exact Option.some_ne_none _
  obtain ⟨hfull, hpos, -⟩ := full_of_closing h hsome
  refine Phased.Run.complete hpos hfull ?_
  have hawaits : awaited (.done oldPhase) = awaited (s.pc t) := by
    rw [hpc]
    rfl
  simp only [State.phased, State.storePhase, State.setPc, awaits_update hawaits,
    Phased.State.complete, Ledger.close]

theorem run_poll (h : Inv s) {token : Bool} {k : ℕ} (hpc : s.pc t = .waiting token k) :
    Phased.Run n s.phased (if s.phase ≠ token then [.resume t] else [])
      (if s.phase ≠ token then s.setPc t .idle else s).phased := by
  have hlocal := h.threads t
  rw [hpc] at hlocal
  obtain ⟨htoken, hle, -⟩ := hlocal
  split_ifs with hphase
  · have hne : k ≠ s.ledger.phaseNo := by
      rintro rfl
      exact hphase (h.phase_eq.trans htoken.symm)
    have hawaits : s.phased.awaits t = some k := by
      simp only [State.phased, Function.comp_apply, hpc, awaited]
    refine Phased.Run.resume hawaits (lt_of_le_of_ne hle hne) ?_
    simp only [State.phased, State.setPc, Function.comp_update, Phased.State.setAwaits, awaited]
  · exact Phased.Run.silent rfl

theorem run_wait (h : Inv s) {u : ι} {token : Bool} (hpc : s.pc u = .done token)
    (hfree : t = u ∨ s.pc t = .idle) :
    Phased.Run n s.phased [.await t (s.arrival u).countedIn]
      (s.setPc t (.waiting token (s.arrival u).countedIn)).phased := by
  have hnone : s.phased.awaits t = none := by
    simp only [State.phased, Function.comp_apply]
    rcases hfree with rfl | hidle
    · rw [hpc]
      rfl
    · rw [hidle]
      rfl
  refine Phased.Run.await hnone (counted_of_done h hpc).1.le_phaseNo ?_
  simp only [State.phased, State.setPc, Function.comp_update, Phased.State.setAwaits, awaited]

theorem run_step (h : Inv s) {l : Label ι} (hstep : step s l = some s') :
    Phased.Run n s.phased (actions s l) s'.phased := by
  cases l with
  | arrive t update =>
    rw [step] at hstep
    split_ifs at hstep with hidle
    obtain rfl := Option.some.inj hstep
    apply Phased.Run.silent
    exact phased_setPc (by rw [hidle]; rfl)
  | arriveAndDrop t =>
    rw [step] at hstep
    split_ifs at hstep with hidle
    obtain rfl := Option.some.inj hstep
    apply Phased.Run.silent
    exact phased_setPc (by rw [hidle]; rfl)
  | wait t u =>
    rw [step] at hstep
    split at hstep
    · rename_i token hpc
      split_ifs at hstep with hfree
      obtain rfl := Option.some.inj hstep
      exact run_wait h hpc hfree
    · cases hstep
  | step t =>
    rw [step] at hstep
    rw [actions]
    split at hstep
    all_goals rename_i hpc
    all_goals try rw [hpc]
    all_goals try obtain rfl := Option.some.inj hstep
    · exact run_dropExpected h hpc
    · exact Phased.Run.silent (phased_setPc (by rw [hpc]; rfl))
    · exact run_fetchSub h hpc
    · apply Phased.Run.silent
      rw [State.loadExpected]
      split_ifs
      · exact phased_setPc (s := s) (by rw [hpc]; rfl)
      · exact phased_setPc (by rw [hpc]; rfl)
    · exact Phased.Run.silent (phased_setPc (s := s) (by rw [hpc]; rfl))
    · exact Phased.Run.silent (phased_setPc (s := s) (by rw [hpc]; rfl))
    · exact run_storePhase h hpc
    · exact run_poll h hpc
    · cases hstep
  | ret t =>
    rw [step] at hstep
    split at hstep
    · rename_i token hpc
      obtain rfl := Option.some.inj hstep
      exact Phased.Run.silent (phased_setPc (by rw [hpc]; rfl))
    · cases hstep

/-- Every disciplined run of the generic barrier, read by its actions, is a run
of the phased barrier. -/
theorem generic_phased (ι : Type) [Fintype ι] [DecidableEq ι] (n : ℕ) (ls : List (Label ι))
    (s : State ι) (h : (system ι n).Path Disciplined (start ι n) ls s) :
    Phased.Run n (Phased.start ι n) ((system ι n).reading actions (start ι n) ls) s.phased := by
  refine h.simulate_map (f := State.phased) (fun s l s' hreach _ hstep => ?_) rfl
  exact run_step (inv_of_reachable hreach) hstep

/-- Thread `0` waits for the phase that thread `1` completes. -/
theorem generic_phased_two : ∃ a : Phased.State (Fin 2),
    Phased.Run 2 (Phased.start (Fin 2) 2)
      [.arrive 1, .await 0 0, .arrive 1, .complete, .resume 0] a := by
  have hrun : (∃ s, (system (Fin 2) 2).exec Disciplined (start (Fin 2) 2)
      [.arrive 0 1, .step 0, .step 0, .step 0, .wait 0 0, .arrive 1 1, .step 1, .step 1,
        .step 0, .step 1, .step 1, .step 1, .step 1, .step 0] = some s) ∧
      (system (Fin 2) 2).reading actions (start (Fin 2) 2)
        [.arrive 0 1, .step 0, .step 0, .step 0, .wait 0 0, .arrive 1 1, .step 1, .step 1,
          .step 0, .step 1, .step 1, .step 1, .step 1, .step 0] =
        [.arrive 1, .await 0 0, .arrive 1, .complete, .resume 0] :=
    ⟨⟨_, rfl⟩, by decide⟩
  obtain ⟨⟨s, hs⟩, hread⟩ := hrun
  have hphased := generic_phased (Fin 2) 2 _ s (System.path_of_exec hs)
  rw [hread] at hphased
  exact ⟨_, hphased⟩

end Libhipcxx.Barrier.Generic
