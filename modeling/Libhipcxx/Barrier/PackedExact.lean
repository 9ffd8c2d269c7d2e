import Libhipcxx.Barrier.PackedPhase

/-!
# Exact phases of the packed barrier

In a clean run no phase is completed ahead of the previous completing thread's
second addition, and no phase leaves the expected count at zero.  Then the
phase bit is the parity of the phases completed, arrivals are counted in the
phase they were issued to, and the arrived field is restored when the
completing thread has returned.  Outside clean runs all of this can fail.
-/

namespace Libhipcxx.Barrier.Packed

open Transition Threads

variable {ι : Type} {t : ι}

/-- What a thread's point says of its current or last arrival. -/
def Tracked (phaseNo : ℕ) (a : Arrival) : Pc → Prop
  | .dropAdd => a.update = 1 ∧ a.issuedIn = phaseNo
  | .arriveAdd update =>
      a.update = update ∧ (update = 0 ∨ a.issuedIn = phaseNo)
  | .reAdd old => a.InPhase ∧ old &&& phaseBit = parityBit a.countedIn
  | .done token => a.InPhase ∧ token = parityBit a.countedIn
  | _ => True

/-- With nothing on its way, the phase number may move. -/
theorem tracked_of_inFlight {phaseNo : ℕ} (phaseNo' : ℕ) {a : Arrival} {pc : Pc}
    (h : Tracked phaseNo a pc) (hpc : inFlight pc = 0) :
    Tracked phaseNo' a pc := by
  cases pc with
  | dropAdd => cases hpc
  | arriveAdd update => exact ⟨h.1, Or.inl hpc⟩
  | reAdd _ | done _ | idle | waiting _ | waitingParity _ => exact h

/-- A step of one thread that leaves the phase and the other arrivals. -/
theorem tracked_setPc [DecidableEq ι] {s : State ι} (t : ι)
    (h : ∀ u, Tracked s.ledger.phaseNo (s.arrival u) (s.pc u)) {pc : Pc}
    {a : Arrival} (hpc : Tracked s.ledger.phaseNo a pc) (u : ι) :
    Tracked s.ledger.phaseNo (Function.update s.arrival t a u)
      (Function.update s.pc t pc u) := by
  by_cases hu : u = t
  · subst hu
    rw [Function.update_self, Function.update_self]
    exact hpc
  · rw [Function.update_of_ne hu, Function.update_of_ne hu]
    exact h u

theorem tracked_setPc_same [DecidableEq ι] {s : State ι} (t : ι)
    (h : ∀ u, Tracked s.ledger.phaseNo (s.arrival u) (s.pc u)) {pc : Pc}
    (hpc : Tracked s.ledger.phaseNo (s.arrival t) pc) (u : ι) :
    Tracked s.ledger.phaseNo (s.arrival u) (Function.update s.pc t pc u) := by
  have hsame := tracked_setPc t h hpc u
  rwa [Function.update_eq_self] at hsame

/-- The arrival is stamped with the phase it is counted in, which is the phase
it was issued to. -/
theorem inPhase_of_tracked {phaseNo update : ℕ} {a : Arrival}
    (h : Tracked phaseNo a (.arriveAdd update)) :
    ({ a with countedIn := phaseNo } : Arrival).InPhase := by
  obtain ⟨hupdate, hphase⟩ := h
  rcases hphase with hzero | hissued
  · exact Or.inl (hupdate.trans hzero)
  · exact Or.inr hissued

variable [Fintype ι] {s : State ι}

/-- While anyone is expected, the phase bit is the parity of the phase. -/
theorem phaseBit_of_inv (h : Inv s) (hquota : 0 < s.ledger.quota) :
    s.word &&& phaseBit = parityBit s.ledger.phaseNo := by
  obtain ⟨hcounted, hdrops⟩ :
      s.ledger.counted ≤ s.ledger.quota ∧ s.ledger.drops ≤ s.ledger.quota :=
    ⟨by have := h.sound.counted_le; omega, h.sound.drops_le_quota⟩
  have hle := h.quota_le
  have hlt := h.counted_lt
  have hvalue : wordValue s.ledger s.completer.isSome / 2 ^ 63 =
      s.ledger.phaseNo := by
    unfold wordValue
    cases s.completer.isSome with
    | true =>
        simp only [cond_true]
        omega
    | false =>
        simp only [cond_false]
        omega
  rw [h.word_eq, ofNat_and_phaseBit, hvalue]

/-- Without an outstanding addition the arrived field is the negated quota
plus the count. -/
theorem arrived_of_inv (h : Inv s) (hquota : 0 < s.ledger.quota)
    (hnone : s.completer = none) :
    arrived s.word = 2 ^ 31 - s.ledger.quota + s.ledger.counted := by
  have hdrops := h.sound.drops_le_quota
  have hle := h.quota_le
  have hlt := h.counted_lt
  rw [h.word_eq, hnone, arrived_ofNat]
  simp only [wordValue, Option.isSome_none, cond_false]
  omega

theorem completer_none_of_inv (h : Inv s)
    (hpcs : ∀ t old, s.pc t ≠ .reAdd old) : s.completer = none := by
  by_contra hsome
  obtain ⟨t, ht⟩ := Option.ne_none_iff_exists'.mp hsome
  have hlocal := h.threads t
  cases hpc : s.pc t with
  | reAdd old => exact hpcs t old hpc
  | idle | dropAdd | arriveAdd _ | done _ | waiting _ | waitingParity _ =>
      rw [hpc] at hlocal
      exact hlocal ht

/-- The invariant of clean runs. -/
structure CleanInv (s : State ι) : Prop extends Inv s where
  expected : 0 < s.ledger.quota
  tracked : ∀ t, Tracked s.ledger.phaseNo (s.arrival t) (s.pc t)

theorem cleanInv_start {n : ℕ} (hpos : 1 ≤ n) (hn : n ≤ max) :
    CleanInv (start ι n) where
  toInv := inv_start hn
  expected := hpos
  tracked _ := trivial

variable [DecidableEq ι]

theorem tracked_arriveAdd (h : CleanInv s) {update : ℕ}
    (hpc : s.pc t = .arriveAdd update)
    (hinv : Inv (s.arriveAdd t update))
    (hflips : flips s.word (inc update) = true ↔ s.ledger.CountsLast update)
    (u : ι) :
    Tracked (s.arriveAdd t update).ledger.phaseNo
      ((s.arriveAdd t update).arrival u) ((s.arriveAdd t update).pc u) := by
  have hbit := phaseBit_of_inv h.toInv h.expected
  have htracked := h.tracked t
  rw [hpc] at htracked
  have hphase := inPhase_of_tracked htracked
  by_cases hlast : s.ledger.CountsLast update
  · obtain ⟨hpcs, hledger, -⟩ :=
      arriveAdd_of_last (t := t) (hflips.mpr hlast) hlast
    -- the closed phase has nothing on its way, so no other thread is affected
    have hempty : inFlight ((s.arriveAdd t update).pc u) = 0 := by
      have hissued := hinv.sound.issued_eq
      have hle := le_total inFlight (s.arriveAdd t update).pc u
      rw [hledger] at hissued
      simp only [Ledger.close] at hissued
      omega
    suffices hold : Tracked s.ledger.phaseNo ((s.arriveAdd t update).arrival u)
        ((s.arriveAdd t update).pc u) from tracked_of_inFlight _ hold hempty
    have hnew : Tracked s.ledger.phaseNo
        { s.arrival t with countedIn := s.ledger.phaseNo } (.reAdd s.word) :=
      ⟨hphase, hbit⟩
    rw [hpcs]
    exact tracked_setPc t h.tracked hnew u
  · have hno : flips s.word (inc update) = false := by
      simpa [hlast] using hflips
    obtain ⟨hpcs, hledger, -⟩ := arriveAdd_of_not_last (t := t) hno hlast
    have hnew : Tracked s.ledger.phaseNo
        { s.arrival t with countedIn := s.ledger.phaseNo }
        (.done (s.word &&& phaseBit)) := ⟨hphase, hbit⟩
    rw [hpcs, hledger]
    exact tracked_setPc t h.tracked hnew u

theorem cleanInv_step {l : Label ι} {s' : State ι} (h : CleanInv s)
    (hl : Clean s l) (hstep : step s l = some s') : CleanInv s' := by
  have hinv := inv_step h.toInv hl.toOrderly hstep
  rcases step_cases hstep with ⟨t, update, rfl, hidle, rfl⟩ |
    ⟨t, rfl, hidle, rfl⟩ | ⟨t, rfl, hpc, rfl⟩ | ⟨t, update, rfl, hpc, rfl⟩ |
    ⟨t, old, rfl, hpc, rfl⟩ | ⟨t, pc, -, hpc, hpc', hdone, rfl⟩
  · refine ⟨hinv, h.expected, ?_⟩
    have hnew : Tracked s.ledger.phaseNo ⟨update, s.ledger.phaseNo, 0⟩
        (.arriveAdd update) := ⟨rfl, Or.inr rfl⟩
    exact tracked_setPc t h.tracked hnew
  · refine ⟨hinv, h.expected, ?_⟩
    have hnew : Tracked s.ledger.phaseNo ⟨1, s.ledger.phaseNo, 0⟩ .dropAdd :=
      ⟨rfl, rfl⟩
    exact tracked_setPc t h.tracked hnew
  · refine ⟨hinv, h.expected, ?_⟩
    have htracked := h.tracked t
    rw [hpc] at htracked
    exact tracked_setPc_same t h.tracked ⟨htracked.1, Or.inr htracked.2⟩
  · have hreset : s.ledger.CountsLast update → s.completer = none :=
      fun hlast =>
        hl.reset_done (countsLast_iff.mpr ⟨t, update, rfl, hpc, hlast⟩)
    have hflips := flips_iff h.toInv hpc hreset
    refine ⟨hinv, ?_, tracked_arriveAdd h hpc hinv hflips⟩
    have hexpected := h.expected
    rw [arriveAdd_ledger, Ledger.countAndClose]
    split
    · rename_i hlast
      have hremains := hl.remains (countsLast_iff.mpr ⟨t, update, rfl, hpc, hlast⟩)
      simp only [Ledger.close, Ledger.count]
      omega
    · exact hexpected
  · refine ⟨hinv, ?_, ?_⟩
    · rw [reAdd_ledger]
      exact h.expected
    · have htracked := h.tracked t
      rw [hpc] at htracked
      rw [reAdd_ledger, reAdd_pc]
      exact tracked_setPc_same t h.tracked htracked
  · refine ⟨hinv, h.expected, ?_⟩
    refine tracked_setPc_same t h.tracked ?_
    cases pc with
    | dropAdd | arriveAdd _ | reAdd _ => exact hpc'.elim
    | idle | waiting _ | waitingParity _ => trivial
    | done token =>
        have htracked := h.tracked t
        rwa [hdone token rfl] at htracked

theorem cleanInv_of_reachable {n : ℕ} (hpos : 1 ≤ n) (hn : n ≤ max)
    (h : (system ι n).Reachable Clean s) : CleanInv s := by
  refine h.invariant ?_ ?_
  · rintro s rfl
    exact cleanInv_start hpos hn
  · intro s l s' hinv hl hstep
    exact cleanInv_step hinv hl hstep

/-! ## The phases of a clean run -/

/-- What a packed barrier owes its users in a state. -/
structure PhaseExact (s : State ι) : Prop where
  phase : s.word &&& phaseBit = parityBit s.ledger.phaseNo
  unfinished : s.ledger.counted < s.ledger.quota
  none_lost : s.ledger.issued = s.ledger.counted + total inFlight s.pc
  issued_to : ∀ t update, s.pc t = .arriveAdd update → 0 < update →
    (s.arrival t).issuedIn = s.ledger.phaseNo
  counted_in : ∀ t token, s.pc t = .done token →
    (s.arrival t).InPhase ∧ token = parityBit (s.arrival t).countedIn
  restored : (∀ t old, s.pc t ≠ .reAdd old) →
    arrived s.word = 2 ^ 31 - s.ledger.quota + s.ledger.counted

omit [DecidableEq ι] in
theorem CleanInv.phaseExact (h : CleanInv s) : PhaseExact s where
  phase := phaseBit_of_inv h.toInv h.expected
  unfinished := by
    have hlt := h.counted_lt
    have hexpected := h.expected
    omega
  none_lost := h.sound.issued_eq
  issued_to := by
    intro t update hpc hpos
    have htracked := h.tracked t
    rw [hpc] at htracked
    exact htracked.2.resolve_left (Nat.ne_of_gt hpos)
  counted_in := by
    intro t token hpc
    have htracked := h.tracked t
    rwa [hpc] at htracked
  restored := fun hpcs =>
    arrived_of_inv h.toInv h.expected (completer_none_of_inv h.toInv hpcs)

omit [Fintype ι] in
/-- The phase number moves by one with the arrival that completes the phase,
and with no other step. -/
theorem phaseNo_step {l : Label ι} {s' : State ι} (hstep : step s l = some s') :
    (CountsLast s l → s'.ledger.phaseNo = s.ledger.phaseNo + 1) ∧
      (¬ CountsLast s l → s'.ledger.phaseNo = s.ledger.phaseNo) := by
  rcases step_cases hstep with ⟨t, update, rfl, hidle, rfl⟩ |
    ⟨t, rfl, hidle, rfl⟩ | ⟨t, rfl, hpc, rfl⟩ | ⟨t, update, rfl, hpc, rfl⟩ |
    ⟨t, old, rfl, hpc, rfl⟩ | ⟨t, pc, hlast, hpc, hpc', hdone, rfl⟩
  · exact ⟨False.elim, fun _ => rfl⟩
  · exact ⟨False.elim, fun _ => rfl⟩
  · rw [CountsLast, hpc]
    exact ⟨False.elim, fun _ => rfl⟩
  · rw [CountsLast, hpc, Pc.CountsLast, arriveAdd_ledger]
    exact ⟨fun hlast => by rw [Ledger.countAndClose, if_pos hlast]; rfl,
      fun hlast => by rw [Ledger.countAndClose, if_neg hlast]; rfl⟩
  · rw [CountsLast, hpc, reAdd_ledger]
    exact ⟨False.elim, fun _ => rfl⟩
  · exact ⟨fun h => absurd h hlast, fun _ => rfl⟩

/-- In every clean run of any threads the phases are exact in every state, and
a step flips the phase bit exactly when it counts the last arrival of the
phase, which is when the phase number moves. -/
theorem packed_phases_exact (ι : Type) [Fintype ι] [DecidableEq ι] (n : ℕ)
    (hpos : 1 ≤ n) (hn : n ≤ max) (s : State ι)
    (h : (system ι n).Reachable Clean s) :
    PhaseExact s ∧
      ∀ l s', Clean s l → step s l = some s' →
        (s'.word &&& phaseBit ≠ s.word &&& phaseBit ↔ CountsLast s l) ∧
        (CountsLast s l → s'.ledger.phaseNo = s.ledger.phaseNo + 1) ∧
        (¬ CountsLast s l → s'.ledger.phaseNo = s.ledger.phaseNo) := by
  have hinv := cleanInv_of_reachable hpos hn h
  refine ⟨hinv.phaseExact, ?_⟩
  intro l s' hl hstep
  obtain ⟨hmoves, hstays⟩ := phaseNo_step hstep
  refine ⟨?_, hmoves, hstays⟩
  rw [(cleanInv_step hinv hl hstep).phaseExact.phase, hinv.phaseExact.phase,
    ne_eq, parityBit_eq_iff]
  constructor
  · intro hflip
    by_contra hlast
    rw [hstays hlast] at hflip
    exact hflip rfl
  · intro hlast
    rw [hmoves hlast]
    omega

/-- Two threads arrive; the second one completes the phase and restores the
arrived field. -/
theorem packed_phases_exact_two :
    ∃ s : State (Fin 2),
      (system (Fin 2) 2).exec Clean (start (Fin 2) 2)
        [.arrive 0 1, .arrive 1 1, .step 0, .step 1, .step 1] = some s ∧
      PhaseExact s := by
  obtain ⟨s, hs⟩ : ∃ s : State (Fin 2),
      (system (Fin 2) 2).exec Clean (start (Fin 2) 2)
        [.arrive 0 1, .arrive 1 1, .step 0, .step 1, .step 1] = some s :=
    ⟨_, rfl⟩
  refine ⟨s, hs, ?_⟩
  exact (packed_phases_exact (Fin 2) 2 (by decide) (by decide) s
    (System.reachable_of_exec rfl hs)).1

/-- Outside clean runs.  Thread `0` observes the flip made by thread `1` and
arrives twice before thread `1` has added the expected count again: the second
phase is counted in full, yet no one restores the arrived field.  A single
thread that drops leaves its flip undone. -/
theorem packed_phases_not_exact :
    (∃ s : State (Fin 2),
      (system (Fin 2) 2).exec Disciplined (start (Fin 2) 2)
        [.arrive 0 1, .step 0, .ret 0, .wait 0 0, .arrive 1 1, .step 1,
          .step 0, .arrive 0 2, .step 0, .step 1, .ret 0, .ret 1] = some s ∧
      (∀ t, s.pc t = .idle) ∧ ¬ PhaseExact s) ∧
    (∃ s : State (Fin 1),
      (system (Fin 1) 1).exec Disciplined (start (Fin 1) 1)
        [.arriveAndDrop 0, .step 0, .step 0, .step 0, .ret 0] = some s ∧
      (∀ t, s.pc t = .idle) ∧ s.word &&& phaseBit = 0 ∧
      s.ledger.phaseNo = 1 ∧ ¬ PhaseExact s) := by
  constructor
  · obtain ⟨s, hs, hidle, harrived⟩ : ∃ s : State (Fin 2),
        (system (Fin 2) 2).exec Disciplined (start (Fin 2) 2)
          [.arrive 0 1, .step 0, .ret 0, .wait 0 0, .arrive 1 1, .step 1,
            .step 0, .arrive 0 2, .step 0, .step 1, .ret 0, .ret 1] = some s ∧
        (∀ t, s.pc t = .idle) ∧
        arrived s.word ≠ 2 ^ 31 - s.ledger.quota + s.ledger.counted :=
      ⟨_, rfl, by decide, by decide⟩
    refine ⟨s, hs, hidle, fun h => harrived (h.restored ?_)⟩
    intro t old
    simp [hidle t]
  · refine ⟨_, rfl, by decide, by decide, by decide, fun h => ?_⟩
    have hphase := h.phase
    revert hphase
    decide

end Libhipcxx.Barrier.Packed
