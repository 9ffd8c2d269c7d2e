import Libhipcxx.Barrier.Packed

/-!
# Phases of the packed barrier

Read as a natural number without wrapping, the word is the phase number, the
count, and the negated quota added up in their fields.  Every atomic operation
adds to it exactly what it adds to the ledger, so the correspondence is linear
arithmetic.  It holds in every run in which no phase is completed while the
previous completing thread is still to add the quota again.
-/

namespace Libhipcxx.Barrier.Packed

open Transition Threads

/-- The word without wrapping.  While the second addition is outstanding the
arrived field holds the bare count. -/
def wordValue (g : Ledger) (outstanding : Bool) : ℕ :=
  g.phaseNo * 2 ^ 63 +
    (g.counted + bif outstanding then 0 else 2 ^ 31 - g.quota) * 2 ^ 32 +
    (2 ^ 31 - g.quota + g.drops)

theorem wordValue_start (n : ℕ) :
    wordValue (.start n) false = (2 ^ 31 - n) * 2 ^ 32 + (2 ^ 31 - n) := by
  simp [wordValue, Ledger.start]

theorem wordValue_drop (g : Ledger) (outstanding : Bool) :
    wordValue g.drop outstanding = wordValue g outstanding + 1 := by
  simp only [wordValue, Ledger.drop]
  omega

theorem wordValue_count (g : Ledger) (outstanding : Bool) (update : ℕ) :
    wordValue (g.count update) outstanding =
      wordValue g outstanding + update * 2 ^ 32 := by
  simp only [wordValue, Ledger.count]
  omega

/-- The carry out of the arrived field: closing a full phase adds nothing. -/
theorem wordValue_close {g : Ledger} (hfull : g.counted = g.quota)
    (hdrops : g.drops ≤ g.quota) (hquota : g.quota ≤ 2 ^ 31) :
    wordValue g.close true = wordValue g false := by
  simp only [wordValue, Ledger.close, cond_true, cond_false]
  omega

theorem wordValue_reset (g : Ledger) :
    wordValue g false = wordValue g true + (2 ^ 31 - g.quota) * 2 ^ 32 := by
  simp only [wordValue, cond_true, cond_false]
  omega

variable {ι : Type} {t : ι}

/-- The completing thread is the one with a second addition ahead, and what it
will add is the negated quota. -/
def Local (completer : Option ι) (quota : ℕ) (t : ι) : Pc → Prop
  | .reAdd old =>
      completer = some t ∧
        reset old = BitVec.ofNat 64 ((2 ^ 31 - quota) * 2 ^ 32)
  | _ => completer ≠ some t

theorem dropping_le_inFlight (pc : Pc) : dropping pc ≤ inFlight pc := by
  cases pc <;> simp [dropping, inFlight]

theorem inFlight_of_quiet {pc : Pc} (h : quiet pc) :
    inFlight pc = 0 ∧ dropping pc = 0 := by
  cases pc with
  | dropAdd | arriveAdd _ | reAdd _ => exact h.elim
  | idle | done _ | waiting _ | waitingParity _ => exact ⟨rfl, rfl⟩

theorem local_of_quiet {completer : Option ι} {quota : ℕ} {pc pc' : Pc}
    (h : Local completer quota t pc) (hpc : quiet pc) (hpc' : quiet pc') :
    Local completer quota t pc' := by
  cases pc with
  | dropAdd | arriveAdd _ | reAdd _ => exact hpc.elim
  | idle | done _ | waiting _ | waitingParity _ =>
      cases pc' with
      | dropAdd | arriveAdd _ | reAdd _ => exact hpc'.elim
      | idle | done _ | waiting _ | waitingParity _ => exact h

/-- The thread may move between points where `Local` asks the same. -/
theorem local_setPc [DecidableEq ι] {s : State ι} (h : ∀ u, Local s.completer s.ledger.quota u (s.pc u))
    {pc : Pc} (hpc : Local s.completer s.ledger.quota t pc) (u : ι) :
    Local s.completer s.ledger.quota u (Function.update s.pc t pc u) := by
  revert u
  rw [Function.forall_update_iff s.pc
    (p := fun u pc => Local s.completer s.ledger.quota u pc)]
  exact ⟨hpc, fun u _ => h u⟩

variable [Fintype ι] {s : State ι}

/-- The invariant of orderly runs. -/
structure Inv (s : State ι) : Prop where
  sound : s.ledger.Sound (total inFlight s.pc) (total dropping s.pc)
  quota_le : s.ledger.quota ≤ 2 ^ 31 - 1
  counted_lt : s.ledger.counted < s.ledger.quota ∨ s.ledger.quota = 0
  word_eq : s.word = BitVec.ofNat 64 (wordValue s.ledger s.completer.isSome)
  threads : ∀ t, Local s.completer s.ledger.quota t (s.pc t)

theorem inv_start {n : ℕ} (hn : n ≤ max) : Inv (start ι n) := by
  have hn' : n ≤ 2 ^ 31 - 1 := hn
  refine ⟨?_, hn', ?_, ?_, ?_⟩
  · have hflight : total inFlight (start ι n).pc = 0 :=
      total_const_zero _ _ fun _ => rfl
    have hdropping : total dropping (start ι n).pc = 0 :=
      total_const_zero _ _ fun _ => rfl
    rw [hflight, hdropping]
    exact Ledger.sound_start n
  · show 0 < n ∨ n = 0
    omega
  · show init n = BitVec.ofNat 64 (wordValue (.start n) false)
    rw [wordValue_start, init_eq (by omega)]
  · intro t
    simp [start, Local]

/-- Where the fields of the word stand, from the invariant. -/
theorem value_bounds (h : Inv s) :
    s.ledger.counted + inFlight (s.pc t) ≤ s.ledger.quota ∧
      s.ledger.drops ≤ s.ledger.quota := by
  have hle := h.sound.counted_le
  have hthread := le_total inFlight s.pc t
  exact ⟨by omega, h.sound.drops_le_quota⟩

/-- In an orderly run `arrive` sees the phase bit flip exactly when its
increment completes the count. -/
theorem flips_iff (h : Inv s) {update : ℕ} (hpc : s.pc t = .arriveAdd update)
    (hreset : s.ledger.CountsLast update → s.completer = none) :
    flips s.word (inc update) = true ↔ s.ledger.CountsLast update := by
  obtain ⟨hcounted, hdrops⟩ := value_bounds (t := t) h
  have hquota := h.quota_le
  have hlt := h.counted_lt
  rw [hpc, inFlight] at hcounted
  rw [h.word_eq, inc_eq, flips_ofNat]
  unfold Ledger.CountsLast at hreset ⊢
  unfold wordValue
  cases hcompleter : s.completer with
  | none =>
      simp only [Option.isSome_none, cond_false]
      omega
  | some u =>
      rw [hcompleter] at hreset
      simp only [reduceCtorEq, imp_false] at hreset
      simp only [Option.isSome_some, cond_true]
      omega

theorem reset_of_last (h : Inv s) {update : ℕ}
    (hcompleter : s.completer = none) :
    reset s.word = BitVec.ofNat 64
      ((2 ^ 31 - (s.ledger.count update).close.quota) * 2 ^ 32) := by
  have hquota := h.quota_le
  have hdrops := h.sound.drops_le_quota
  rw [h.word_eq, hcompleter, reset_ofNat]
  congr 2
  simp only [wordValue, Ledger.close, Ledger.count, Option.isSome_none,
    cond_false]
  omega

/-! ## One step -/

variable [DecidableEq ι]

theorem inv_quiet (h : Inv s) {pc : Pc} (hpc : quiet (s.pc t))
    (hpc' : quiet pc) : Inv (s.setPc t pc) := by
  refine ⟨h.sound.move ?_ ?_, h.quota_le, h.counted_lt, h.word_eq, ?_⟩
  · rw [(inFlight_of_quiet hpc).1, (inFlight_of_quiet hpc').1]
  · rw [(inFlight_of_quiet hpc).2, (inFlight_of_quiet hpc').2]
  · exact local_setPc h.threads (local_of_quiet (h.threads t) hpc hpc')

theorem inv_arrive (h : Inv s) (hidle : s.pc t = .idle) {update : ℕ}
    (hquota : s.ledger.issued + update ≤ s.ledger.quota) :
    Inv (s.issue t update (.arriveAdd update)) := by
  have hlocal := h.threads t
  rw [hidle] at hlocal
  refine ⟨h.sound.move_issue hquota ?_ ?_, h.quota_le, h.counted_lt, h.word_eq, ?_⟩
  · rw [hidle]
    exact (Nat.zero_add update).symm
  · rw [hidle]
    rfl
  · exact local_setPc h.threads hlocal

theorem inv_arriveAndDrop (h : Inv s) (hidle : s.pc t = .idle)
    (hquota : s.ledger.issued + 1 ≤ s.ledger.quota) :
    Inv (s.issue t 1 .dropAdd) := by
  have hlocal := h.threads t
  rw [hidle] at hlocal
  refine ⟨h.sound.move_issue_drop hquota ?_ ?_, h.quota_le, h.counted_lt, h.word_eq, ?_⟩
  · rw [hidle]
    rfl
  · rw [hidle]
    rfl
  · exact local_setPc h.threads hlocal

theorem inv_dropAdd (h : Inv s) (hpc : s.pc t = .dropAdd) :
    Inv (s.dropAdd t) := by
  have hlocal := h.threads t
  rw [hpc] at hlocal
  refine ⟨h.sound.move_drop ?_ ?_, h.quota_le, h.counted_lt, ?_, ?_⟩
  · rw [hpc]
    rfl
  · rw [hpc]
    rfl
  · rw [dropAdd_word, dropAdd_ledger, dropAdd_completer, h.word_eq,
      expectedUnit_eq, ← BitVec.ofNat_add, wordValue_drop]
  · exact local_setPc h.threads hlocal

theorem inv_reAdd (h : Inv s) {old : BitVec 64} (hpc : s.pc t = .reAdd old) :
    Inv (s.reAdd t old) := by
  have hlocal := h.threads t
  rw [hpc] at hlocal
  obtain ⟨hcompleter, hreset⟩ := hlocal
  have hnone : (s.reAdd t old).completer = none := by
    simp [State.reAdd, hcompleter]
  refine ⟨?_, h.quota_le, h.counted_lt, ?_, ?_⟩
  · rw [reAdd_pc, reAdd_ledger]
    apply h.sound.move
    · rw [hpc]
      rfl
    · rw [hpc]
      rfl
  · rw [reAdd_word, h.word_eq, hreset, ← BitVec.ofNat_add, hnone,
      reAdd_ledger, hcompleter]
    exact congrArg (BitVec.ofNat 64) (wordValue_reset s.ledger).symm
  · intro u
    rw [hnone, reAdd_pc]
    by_cases hu : u = t
    · subst hu
      simp [Local]
    · rw [Function.update_of_ne hu]
      have hother := h.threads u
      cases hpcu : s.pc u with
      | reAdd old' =>
          rw [hpcu, Local, hcompleter] at hother
          exact absurd (Option.some.inj hother.1).symm hu
      | idle | dropAdd | arriveAdd _ | done _ | waiting _ | waitingParity _ =>
          simp [Local]

theorem sound_arriveAdd (h : Inv s) {update : ℕ}
    (hpc : s.pc t = .arriveAdd update) {pc : Pc} (hflight : inFlight pc = 0)
    (hdropping : dropping pc = 0) :
    (s.ledger.count update).Sound
      (total inFlight (Function.update s.pc t pc))
      (total dropping (Function.update s.pc t pc)) := by
  apply h.sound.move_count
  · rw [hpc, hflight]
    exact Nat.zero_add update
  · rw [hpc, hdropping]
    rfl

theorem inv_arriveAdd_count (h : Inv s) {update : ℕ}
    (hpc : s.pc t = .arriveAdd update)
    (hflips : flips s.word (inc update) = false)
    (hlast : ¬ s.ledger.CountsLast update) : Inv (s.arriveAdd t update) := by
  obtain ⟨hpcs, hledger, hcompleter⟩ :=
    arriveAdd_of_not_last (t := t) hflips hlast
  have hbounds := (value_bounds (t := t) h).1
  have hlocal := h.threads t
  rw [hpc] at hlocal
  rw [hpc, inFlight] at hbounds
  refine ⟨?_, ?_, ?_, ?_, ?_⟩
  · rw [hpcs, hledger]
    exact sound_arriveAdd h hpc rfl rfl
  · rw [hledger]
    exact h.quota_le
  · have hlt := h.counted_lt
    rw [hledger]
    unfold Ledger.CountsLast at hlast
    simp only [Ledger.count]
    omega
  · rw [arriveAdd_word, hledger, hcompleter, h.word_eq, inc_eq,
      ← BitVec.ofNat_add, wordValue_count]
  · rw [hpcs, hledger, hcompleter]
    exact local_setPc h.threads hlocal

theorem inv_arriveAdd_last (h : Inv s) {update : ℕ}
    (hpc : s.pc t = .arriveAdd update)
    (hflips : flips s.word (inc update) = true)
    (hlast : s.ledger.CountsLast update) (hnone : s.completer = none) :
    Inv (s.arriveAdd t update) := by
  obtain ⟨hpcs, hledger, hcompleter⟩ := arriveAdd_of_last (t := t) hflips hlast
  have hquota := h.quota_le
  have hdrops := h.sound.drops_le_quota
  have hfull : (s.ledger.count update).counted = (s.ledger.count update).quota :=
    hlast.2
  have hreAdd : inFlight (.reAdd s.word) = 0 := rfl
  have hsound := sound_arriveAdd h hpc hreAdd rfl
  refine ⟨?_, ?_, ?_, ?_, ?_⟩
  · rw [hpcs, hledger]
    refine (hsound.close hfull ?_).2
    exact Finset.sum_le_sum fun u _ => dropping_le_inFlight _
  · rw [hledger]
    exact Nat.le_trans (Nat.sub_le _ _) hquota
  · rw [hledger]
    simp only [Ledger.close, Ledger.count]
    omega
  · have hclose := wordValue_close hfull hdrops (by simp only [Ledger.count]; omega)
    rw [arriveAdd_word, hledger, hcompleter, h.word_eq, inc_eq,
      ← BitVec.ofNat_add, hnone, Option.isSome_some, Option.isSome_none,
      hclose, wordValue_count]
  · intro u
    rw [hpcs, hledger, hcompleter]
    by_cases hu : u = t
    · subst hu
      rw [Function.update_self]
      exact ⟨rfl, reset_of_last h hnone⟩
    · rw [Function.update_of_ne hu]
      have hother := h.threads u
      rw [hnone] at hother
      cases hpcu : s.pc u with
      | reAdd old =>
          rw [hpcu] at hother
          cases hother.1
      | idle | dropAdd | arriveAdd _ | done _ | waiting _ | waitingParity _ =>
          simpa [Local] using Ne.symm hu

theorem inv_step {l : Label ι} {s' : State ι} (h : Inv s) (hl : Orderly s l)
    (hstep : step s l = some s') : Inv s' := by
  rcases step_cases hstep with ⟨t, update, rfl, hidle, rfl⟩ |
    ⟨t, rfl, hidle, rfl⟩ | ⟨t, rfl, hpc, rfl⟩ | ⟨t, update, rfl, hpc, rfl⟩ |
    ⟨t, old, rfl, hpc, rfl⟩ | ⟨t, pc, -, hpc, hpc', -, rfl⟩
  · exact inv_arrive h hidle hl.disciplined
  · exact inv_arriveAndDrop h hidle hl.disciplined
  · exact inv_dropAdd h hpc
  · have hreset : s.ledger.CountsLast update → s.completer = none :=
      fun hlast =>
        hl.reset_done (countsLast_iff.mpr ⟨t, update, rfl, hpc, hlast⟩)
    have hflips := flips_iff h hpc hreset
    by_cases hlast : s.ledger.CountsLast update
    · exact inv_arriveAdd_last h hpc (hflips.mpr hlast) hlast (hreset hlast)
    · have hno : flips s.word (inc update) = false := by
        simpa [hlast] using hflips
      exact inv_arriveAdd_count h hpc hno hlast
  · exact inv_reAdd h hpc
  · exact inv_quiet h hpc hpc'

end Libhipcxx.Barrier.Packed
