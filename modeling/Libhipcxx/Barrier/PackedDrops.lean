import Libhipcxx.Barrier.PackedExact

/-!
# Phase parity of the packed barrier with drops

Here the phases are separated: an arrival starts only when the thread that
completed the previous phase has finished.  Any number of participants may
leave.  The phase bit then follows the parity of the completed phases as long
as someone is expected.  When nobody is, the negated expected count is `2 ^ 31`
and its addition to the arrived field carries into the phase bit once more.
-/

namespace Libhipcxx.Barrier.Packed

open Transition Threads

variable {ι : Type} [Fintype ι] [DecidableEq ι] {s : State ι}

/-- Besides the discipline, no arrival starts while an operation of an earlier
phase is still to add the expected count again. -/
def Separated (s : State ι) (l : Label ι) : Prop :=
  Disciplined s l ∧
    match l with
    | .arrive _ _ | .arriveAndDrop _ => s.completer = none
    | _ => True

instance (s : State ι) : (l : Label ι) → Decidable (Separated s l)
  | .arrive _ _ => inferInstanceAs (Decidable (Disciplined _ _ ∧ _ = _))
  | .arriveAndDrop _ => inferInstanceAs (Decidable (Disciplined _ _ ∧ _ = _))
  | .wait _ _ | .waitParity _ _ | .step _ | .ret _ =>
      inferInstanceAs (Decidable (Disciplined _ _ ∧ True))

/-- While the second addition is outstanding nothing has been issued. -/
structure SeparatedInv (s : State ι) : Prop extends Inv s where
  issued_eq : s.completer ≠ none → s.ledger.issued = 0

omit [Fintype ι] in
theorem completer_arriveAdd {t : ι} {update : ℕ}
    (hissued : s.completer ≠ none → s.ledger.issued = 0)
    (hflips : flips s.word (inc update) = true ↔ s.ledger.CountsLast update)
    (h : (s.arriveAdd t update).completer ≠ none) :
    (s.arriveAdd t update).ledger.issued = 0 := by
  by_cases hlast : s.ledger.CountsLast update
  · rw [(arriveAdd_of_last (t := t) (hflips.mpr hlast) hlast).2.1]
    rfl
  · have hno : flips s.word (inc update) = false := by
      simpa [hlast] using hflips
    obtain ⟨-, hledger, hcompleter⟩ := arriveAdd_of_not_last (t := t) hno hlast
    rw [hcompleter] at h
    rw [hledger]
    exact hissued h

omit [DecidableEq ι] in
/-- A separated run is orderly: an arrival that completes a phase is on its
way, so it was issued after the previous second addition. -/
theorem orderly_of_separated {l : Label ι} (h : SeparatedInv s)
    (hl : Separated s l) : Orderly s l where
  disciplined := hl.1
  reset_done := by
    intro hlast
    obtain ⟨t, update, -, hpc, hpos, -⟩ := countsLast_iff.mp hlast
    by_contra hsome
    have hissued := h.issued_eq hsome
    have hsound := h.sound.issued_eq
    have hle := le_total inFlight s.pc t
    rw [hpc, inFlight] at hle
    omega

theorem separatedInv_step {l : Label ι} {s' : State ι} (h : SeparatedInv s)
    (hl : Separated s l) (hstep : step s l = some s') : SeparatedInv s' := by
  have horderly := orderly_of_separated h hl
  refine ⟨inv_step h.toInv horderly hstep, ?_⟩
  rcases step_cases hstep with ⟨t, update, rfl, hidle, rfl⟩ |
    ⟨t, rfl, hidle, rfl⟩ | ⟨t, rfl, hpc, rfl⟩ | ⟨t, update, rfl, hpc, rfl⟩ |
    ⟨t, old, rfl, hpc, rfl⟩ | ⟨t, pc, hlast, hpc, hpc', hdone, rfl⟩
  · intro hsome
    exact absurd hl.2 hsome
  · intro hsome
    exact absurd hl.2 hsome
  · exact h.issued_eq
  · have hreset : s.ledger.CountsLast update → s.completer = none :=
      fun hlast => horderly.reset_done
        (countsLast_iff.mpr ⟨t, update, rfl, hpc, hlast⟩)
    exact completer_arriveAdd h.issued_eq (flips_iff h.toInv hpc hreset)
  · intro hsome
    have hcompleter : s.completer = some t := by
      have hlocal := h.threads t
      rw [hpc] at hlocal
      exact hlocal.1
    simp [State.reAdd, hcompleter] at hsome
  · exact h.issued_eq

theorem separatedInv_of_reachable {n : ℕ} (hn : n ≤ max)
    (h : (system ι n).Reachable Separated s) : SeparatedInv s := by
  refine h.invariant ?_ ?_
  · rintro s rfl
    exact ⟨inv_start hn, fun _ => rfl⟩
  · intro s l s' hinv hl hstep
    exact separatedInv_step hinv hl hstep

omit [DecidableEq ι] in
/-- When nobody is expected any more, the phase bit is the wrong one. -/
theorem phaseBit_of_quota_zero (h : Inv s) (hquota : s.ledger.quota = 0)
    (hnone : s.completer = none) :
    s.word &&& phaseBit = parityBit (s.ledger.phaseNo + 1) := by
  have hcounted := h.sound.counted_le
  have hdrops := h.sound.drops_le_quota
  have hvalue : wordValue s.ledger s.completer.isSome / 2 ^ 63 =
      s.ledger.phaseNo + 1 := by
    simp only [wordValue, hnone, Option.isSome_none, cond_false]
    omega
  rw [h.word_eq, ofNat_and_phaseBit, hvalue]

omit [DecidableEq ι] in
theorem phaseBit_iff_quota (h : Inv s) (hnone : s.completer = none) :
    s.word &&& phaseBit = parityBit s.ledger.phaseNo ↔
      s.ledger.quota ≠ 0 := by
  constructor
  · intro hphase hquota
    rw [phaseBit_of_quota_zero h hquota hnone, parityBit_eq_iff] at hphase
    omega
  · intro hquota
    exact phaseBit_of_inv h (Nat.pos_of_ne_zero hquota)

/-- `wait_parity` on the parity of phase `k` returns at once exactly when the
phase bit is not that of `k`. -/
theorem tryWaitParity_iff (word : BitVec 64) (k : ℕ) :
    tryWaitParity word (decide (k % 2 = 1)) = true ↔
      word &&& phaseBit ≠ parityBit k := by
  simp [tryWaitParity, tryWaitPhase, parityBit]

omit [DecidableEq ι] in
/-- Between operations every arrival issued to the phase has been counted, and
they are not yet all that the phase expects. -/
theorem issued_eq_counted_of_quiet (h : Inv s) (hquiet : ∀ t, quiet (s.pc t)) :
    s.ledger.issued = s.ledger.counted ∧
      (s.ledger.counted < s.ledger.quota ∨ s.ledger.quota = 0) := by
  have hzero : total inFlight s.pc = 0 :=
    total_const_zero _ _ fun t => (inFlight_of_quiet (hquiet t)).1
  have hissued := h.sound.issued_eq
  rw [hzero] at hissued
  exact ⟨hissued, h.counted_lt⟩

/-- Between operations of any separated run from any count, dropping to zero
included, all arrivals issued have been counted, and the phase bit after `k`
completed phases is `k` modulo two, and `wait_parity` for the last completed
phase returns, exactly when the expected count is not zero. -/
theorem packed_parity_iff_expected (ι : Type) [Fintype ι] [DecidableEq ι]
    (n : ℕ) (hn : n ≤ max) (s : State ι)
    (h : (system ι n).Reachable Separated s) (hquiet : ∀ t, quiet (s.pc t)) :
    (s.ledger.issued = s.ledger.counted ∧
      (s.ledger.counted < s.ledger.quota ∨ s.ledger.quota = 0)) ∧
    (s.word &&& phaseBit = parityBit s.ledger.phaseNo ↔
      s.ledger.quota ≠ 0) ∧
    ∀ k, s.ledger.phaseNo = k + 1 →
      (tryWaitParity s.word (decide (k % 2 = 1)) = true ↔
        s.ledger.quota ≠ 0) := by
  have hinv := (separatedInv_of_reachable hn h).toInv
  have hnone : s.completer = none := by
    refine completer_none_of_inv hinv ?_
    intro t old hpc
    have hq := hquiet t
    rw [hpc] at hq
    exact hq
  have hphase := phaseBit_iff_quota hinv hnone
  refine ⟨issued_eq_counted_of_quiet hinv hquiet, hphase, ?_⟩
  intro k hk
  rw [tryWaitParity_iff, ← hphase, hk]
  by_cases hquota : s.ledger.quota = 0
  · rw [phaseBit_of_quota_zero hinv hquota hnone, hk, ne_eq, parityBit_eq_iff,
      parityBit_eq_iff]
    omega
  · rw [phaseBit_of_inv hinv (Nat.pos_of_ne_zero hquota), hk, ne_eq,
      parityBit_eq_iff]
    simp only [iff_true]
    omega

/-- One of two participants leaves, and the phase completes. -/
theorem packed_parity_iff_expected_one_left :
    ∃ s : State (Fin 2),
      (system (Fin 2) 2).exec Separated (start (Fin 2) 2)
        [.arriveAndDrop 0, .step 0, .step 0, .ret 0, .arrive 1 1, .step 1,
          .step 1, .ret 1] = some s ∧
      s.ledger.phaseNo = 1 ∧ tryWaitParity s.word false = true := by
  obtain ⟨s, hs, hidle, hphase, hquota⟩ : ∃ s : State (Fin 2),
      (system (Fin 2) 2).exec Separated (start (Fin 2) 2)
        [.arriveAndDrop 0, .step 0, .step 0, .ret 0, .arrive 1 1, .step 1,
          .step 1, .ret 1] = some s ∧
      (∀ t, s.pc t = .idle) ∧ s.ledger.phaseNo = 1 ∧ s.ledger.quota ≠ 0 :=
    ⟨_, rfl, by decide, by decide, by decide⟩
  refine ⟨s, hs, hphase, ?_⟩
  have hquiet : ∀ t, quiet (s.pc t) := fun t => by rw [hidle t]; trivial
  exact ((packed_parity_iff_expected (Fin 2) 2 (by decide) s
    (System.reachable_of_exec rfl hs) hquiet).2.2 0 hphase).mpr hquota

/-- The phase bit is set in a barrier constructed for nobody, and the flip made
by the last participant's drop is undone by its own second addition, so that
`wait_parity` for the completed phase does not return. -/
theorem packed_parity_not_kept :
    init 0 &&& phaseBit ≠ parityBit 0 ∧
    ∃ s : State (Fin 1),
      (system (Fin 1) 1).exec Separated (start (Fin 1) 1)
        [.arriveAndDrop 0, .step 0, .step 0, .step 0, .ret 0] = some s ∧
      (∀ t, s.pc t = .idle) ∧ s.ledger.phaseNo = 1 ∧
      s.word &&& phaseBit ≠ parityBit 1 ∧
      tryWaitParity s.word false = false := by
  refine ⟨by decide, _, rfl, by decide, by decide, by decide, by decide⟩

end Libhipcxx.Barrier.Packed
