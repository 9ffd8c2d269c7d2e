import Libhipcxx.Barrier.PackedExact
import Libhipcxx.Barrier.Phased

/-!
# The packed barrier as a phased barrier

One addition counts an arrival and, with its carry, completes the phase.  A token
says of its phase only whether it is even or odd, so a wait is for the last phase
begun that the token can be of.
-/

namespace Libhipcxx.Barrier.Packed

open Transition Threads

/-- The last phase begun with this phase bit. -/
def latest (phaseNo : ℕ) (bit : BitVec 64) : ℕ :=
  if bit = parityBit phaseNo then phaseNo else phaseNo - 1

/-- Some phase with this phase bit has begun. -/
def Begun (phaseNo : ℕ) (bit : BitVec 64) : Prop :=
  bit = parityBit phaseNo ∨ 0 < phaseNo ∧ bit = parityBit (phaseNo - 1)

instance (phaseNo : ℕ) (bit : BitVec 64) : Decidable (Begun phaseNo bit) :=
  inferInstanceAs (Decidable (_ ∨ _))

/-- The phase bit that `wait_parity` compares with. -/
def bitOf (parity : Bool) : BitVec 64 := if parity then phaseBit else 0

/-- The actions of a step. -/
def actions {ι : Type} (s : State ι) : Label ι → List (Phased.Action ι)
  | .wait t token => [.await t (latest s.ledger.phaseNo token)]
  | .waitParity t parity => [.await t (latest s.ledger.phaseNo (bitOf parity))]
  | .step t =>
      match s.pc t with
      | .dropAdd => [.leave]
      | .arriveAdd update =>
          .arrive update :: if flips s.word (inc update) then [.complete] else []
      | .waiting token => if tryWait s.word token then [.resume t] else []
      | .waitingParity parity => if tryWaitParity s.word parity then [.resume t] else []
      | _ => []
  | _ => []

/-- A wait is made on the phase bit of a phase that has begun. -/
def OnBegun {ι : Type} (s : State ι) : Label ι → Prop
  | .wait _ token => Begun s.ledger.phaseNo token
  | .waitParity _ parity => Begun s.ledger.phaseNo (bitOf parity)
  | _ => True

instance {ι : Type} (s : State ι) : (l : Label ι) → Decidable (OnBegun s l)
  | .wait _ token => inferInstanceAs (Decidable (Begun s.ledger.phaseNo token))
  | .waitParity _ parity => inferInstanceAs (Decidable (Begun s.ledger.phaseNo (bitOf parity)))
  | .arrive _ _ | .arriveAndDrop _ | .step _ | .ret _ => inferInstanceAs (Decidable True)

/-- What a thread waits for. -/
def Awaits (phaseNo : ℕ) (k : Option ℕ) : Pc → Prop
  | .waiting token => ∃ j ≤ phaseNo, k = some j ∧ token = parityBit j
  | .waitingParity parity => ∃ j ≤ phaseNo, k = some j ∧ bitOf parity = parityBit j
  | _ => k = none

/-- The state that users see, with the phases that the waits are for. -/
def State.phased {ι : Type} (s : State ι) (awaits : ι → Option ℕ) : Phased.State ι where
  phaseNo := s.ledger.phaseNo
  expected := s.ledger.quota
  arrived := s.ledger.counted
  leaving := s.ledger.drops
  awaits := awaits

/-- A state of the phased barrier is that of the packed one. -/
def Reads {ι : Type} (s : State ι) (a : Phased.State ι) : Prop :=
  a = s.phased a.awaits ∧ ∀ t, Awaits s.ledger.phaseNo (a.awaits t) (s.pc t)

theorem Begun.latest {phaseNo : ℕ} {bit : BitVec 64} (h : Begun phaseNo bit) :
    latest phaseNo bit ≤ phaseNo ∧ bit = parityBit (latest phaseNo bit) := by
  rw [Packed.latest]
  split_ifs with heq
  · exact ⟨le_rfl, heq⟩
  · exact ⟨Nat.sub_le phaseNo 1, (h.resolve_left heq).2⟩

theorem parityBit_and (k : ℕ) : parityBit k &&& phaseBit = parityBit k := by
  rw [parityBit]
  split_ifs
  · exact BitVec.and_self
  · exact BitVec.zero_and

theorem Awaits.mono {phaseNo phaseNo' : ℕ} {k : Option ℕ} {pc : Pc} (h : Awaits phaseNo k pc)
    (hle : phaseNo ≤ phaseNo') : Awaits phaseNo' k pc := by
  cases pc with
  | waiting token =>
    obtain ⟨j, hj, hk, htoken⟩ := h
    exact ⟨j, hj.trans hle, hk, htoken⟩
  | waitingParity parity =>
    obtain ⟨j, hj, hk, hparity⟩ := h
    exact ⟨j, hj.trans hle, hk, hparity⟩
  | idle | dropAdd | arriveAdd _ | reAdd _ | done _ => exact h

variable {ι : Type} [DecidableEq ι] {s s' : State ι} {a : Phased.State ι} {t : ι} {n : ℕ}

theorem awaits_setPc (h : ∀ u, Awaits s.ledger.phaseNo (a.awaits u) (s.pc u)) {pc : Pc}
    (hpc : Awaits s.ledger.phaseNo (a.awaits t) pc) (u : ι) :
    Awaits s.ledger.phaseNo (a.awaits u) (Function.update s.pc t pc u) := by
  revert u
  rw [Function.forall_update_iff s.pc
    (p := fun u pc => Awaits s.ledger.phaseNo (a.awaits u) pc)]
  exact ⟨hpc, fun u _ => h u⟩

/-- A thread begins or ends a wait. -/
theorem awaits_setAwaits (h : ∀ u, Awaits s.ledger.phaseNo (a.awaits u) (s.pc u)) {pc : Pc}
    {k : Option ℕ} (hpc : Awaits s.ledger.phaseNo k pc) (u : ι) :
    Awaits s.ledger.phaseNo (Function.update a.awaits t k u) (Function.update s.pc t pc u) := by
  by_cases hu : u = t
  · rw [hu, Function.update_self, Function.update_self]
    exact hpc
  · rw [Function.update_of_ne hu, Function.update_of_ne hu]
    exact h u

omit [DecidableEq ι] in
theorem awaits_none (h : Reads s a) {pc : Pc} (hpc : s.pc t = pc)
    (hnone : ∀ phaseNo k, Awaits phaseNo k pc → k = none) : a.awaits t = none := by
  have hawaits := h.2 t
  rw [hpc] at hawaits
  exact hnone _ _ hawaits

variable [Fintype ι]

theorem run_dropAdd (hinv : Inv s) (h : Reads s a) (hpc : s.pc t = .dropAdd) :
    ∃ a', Phased.Run n a [.leave] a' ∧ Reads (s.dropAdd t) a' := by
  have hnone : a.awaits t = none := awaits_none h hpc fun _ _ hk => hk
  refine ⟨a.leave, Phased.Run.leave ?_ rfl, ?_, awaits_setPc h.2 hnone⟩
  · -- the leaver itself is among the arrivals issued
    have hdropping := le_total dropping s.pc t
    have hdrops := hinv.sound.drops_le
    have hissued := hinv.sound.issued_le
    rw [hpc] at hdropping
    simp only [dropping] at hdropping
    rw [h.1]
    simp only [State.phased]
    omega
  · rw [h.1]
    rfl

theorem run_arriveAdd (hinv : CleanInv s) (h : Reads s a) {update : ℕ}
    (hpc : s.pc t = .arriveAdd update) (hl : Clean s (.step t)) :
    ∃ a', Phased.Run n a (.arrive update :: if flips s.word (inc update) then [.complete] else [])
      a' ∧ Reads (s.arriveAdd t update) a' := by
  have hnone : a.awaits t = none := awaits_none h hpc fun _ _ hk => hk
  have hbounds := (value_bounds (t := t) hinv.toInv).1
  rw [hpc, inFlight] at hbounds
  have hflips := flips_iff hinv.toInv hpc fun hlast =>
    hl.reset_done (countsLast_iff.mpr ⟨t, update, rfl, hpc, hlast⟩)
  have harrive : Phased.Run n a [.arrive update] (a.arrive update) := by
    refine Phased.Run.arrive ?_ rfl
    rw [h.1]
    exact hbounds
  by_cases hlast : s.ledger.CountsLast update
  · obtain ⟨hpcs, hledger, -⟩ := arriveAdd_of_last (t := t) (hflips.mpr hlast) hlast
    refine ⟨(a.arrive update).complete, ?_, ?_, ?_⟩
    · rw [if_pos (hflips.mpr hlast)]
      refine harrive.append (Phased.Run.complete ?_ ?_ rfl)
      · rw [h.1]
        exact hinv.expected
      · rw [h.1]
        exact hlast.2
    · rw [h.1]
      simp only [State.phased, hledger, Phased.State.arrive, Phased.State.complete, Ledger.count,
        Ledger.close]
    · intro u
      have hnew : Awaits s.ledger.phaseNo (a.awaits t) (.reAdd s.word) := hnone
      rw [hpcs, hledger]
      exact (awaits_setPc h.2 hnew u).mono (Nat.le_succ _)
  · have hno : flips s.word (inc update) = false := by
      rw [← Bool.not_eq_true]
      exact fun hflip => hlast (hflips.mp hflip)
    obtain ⟨hpcs, hledger, -⟩ := arriveAdd_of_not_last (t := t) hno hlast
    refine ⟨a.arrive update, ?_, ?_, ?_⟩
    · rw [hno]
      exact harrive
    · rw [h.1]
      simp only [State.phased, hledger, Phased.State.arrive, Ledger.count]
    · rw [hpcs, hledger]
      exact awaits_setPc h.2 hnone

omit [Fintype ι] in
theorem run_reAdd (h : Reads s a) {old : BitVec 64} (hpc : s.pc t = .reAdd old) :
    ∃ a', Phased.Run n a [] a' ∧ Reads (s.reAdd t old) a' := by
  have hnone : a.awaits t = none := awaits_none h hpc fun _ _ hk => hk
  refine ⟨a, Phased.Run.silent rfl, ?_, ?_⟩
  · rw [h.1]
    simp only [State.phased, reAdd_ledger]
  · rw [reAdd_pc, reAdd_ledger]
    exact awaits_setPc h.2 hnone

omit [Fintype ι] in
theorem run_await (h : Reads s a) (hidle : s.pc t = .idle) {pc : Pc} {bit : BitVec 64}
    (hbegun : Begun s.ledger.phaseNo bit)
    (hpc : ∀ j ≤ s.ledger.phaseNo, bit = parityBit j → Awaits s.ledger.phaseNo (some j) pc) :
    ∃ a', Phased.Run n a [.await t (latest s.ledger.phaseNo bit)] a' ∧
      Reads (s.setPc t pc) a' := by
  obtain ⟨hle, hbit⟩ := hbegun.latest
  have hnone : a.awaits t = none := awaits_none h hidle fun _ _ hk => hk
  refine ⟨_, Phased.Run.await hnone ?_ rfl, ?_, awaits_setAwaits h.2 (hpc _ hle hbit)⟩
  · rw [h.1]
    exact hle
  · rw [h.1]
    rfl

/-- A poll that sees another phase bit than that of phase `j` ends the wait. -/
theorem run_poll (hinv : CleanInv s) (h : Reads s a) {bit : BitVec 64} {j : ℕ}
    (hle : j ≤ s.ledger.phaseNo) (hawaits : a.awaits t = some j) (hbit : bit = parityBit j) :
    ∃ a', Phased.Run n a (if tryWaitPhase s.word bit then [.resume t] else []) a' ∧
      Reads (if tryWaitPhase s.word bit then s.setPc t .idle else s) a' := by
  split_ifs with htry
  · have hne : j ≠ s.ledger.phaseNo := by
      rintro rfl
      rw [tryWaitPhase, phaseBit_of_inv hinv.toInv hinv.expected, hbit, bne_self_eq_false] at htry
      cases htry
    refine ⟨_, Phased.Run.resume hawaits ?_ rfl, ?_, awaits_setAwaits h.2 rfl⟩
    · rw [h.1]
      exact lt_of_le_of_ne hle hne
    · rw [h.1]
      rfl
  · exact ⟨a, Phased.Run.silent rfl, h⟩

theorem reads_step (hinv : CleanInv s) (h : Reads s a) {l : Label ι}
    (hl : Clean s l ∧ OnBegun s l) (hstep : step s l = some s') :
    ∃ a', Phased.Run n a (actions s l) a' ∧ Reads s' a' := by
  cases l with
  | arrive t update =>
    rw [step] at hstep
    split_ifs at hstep with hidle
    obtain rfl := Option.some.inj hstep
    have hnone : a.awaits t = none := awaits_none h hidle fun _ _ hk => hk
    exact ⟨a, Phased.Run.silent rfl, h.1, awaits_setPc h.2 hnone⟩
  | arriveAndDrop t =>
    rw [step] at hstep
    split_ifs at hstep with hidle
    obtain rfl := Option.some.inj hstep
    have hnone : a.awaits t = none := awaits_none h hidle fun _ _ hk => hk
    exact ⟨a, Phased.Run.silent rfl, h.1, awaits_setPc h.2 hnone⟩
  | wait t token =>
    rw [step] at hstep
    split_ifs at hstep with hidle
    obtain rfl := Option.some.inj hstep
    exact run_await h hidle hl.2 fun j hle hbit => ⟨j, hle, rfl, hbit⟩
  | waitParity t parity =>
    rw [step] at hstep
    split_ifs at hstep with hidle
    obtain rfl := Option.some.inj hstep
    exact run_await h hidle hl.2 fun j hle hbit => ⟨j, hle, rfl, hbit⟩
  | step t =>
    have hawaits := h.2 t
    rw [step] at hstep
    rw [actions]
    split at hstep
    all_goals rename_i hpc
    all_goals try rw [hpc] at hawaits ⊢
    all_goals try obtain rfl := Option.some.inj hstep
    · exact run_dropAdd hinv.toInv h hpc
    · exact run_arriveAdd hinv h hpc hl.1
    · exact run_reAdd h hpc
    · obtain ⟨j, hle, hj, hbit⟩ := hawaits
      have hmask := (congrArg (· &&& phaseBit) hbit).trans (parityBit_and j)
      exact run_poll hinv h hle hj hmask
    · obtain ⟨j, hle, hj, hbit⟩ := hawaits
      exact run_poll hinv h hle hj hbit
    · cases hstep
  | ret t =>
    rw [step] at hstep
    split at hstep
    · rename_i token hpc
      obtain rfl := Option.some.inj hstep
      have hnone : a.awaits t = none := awaits_none h hpc fun _ _ hk => hk
      exact ⟨a, Phased.Run.silent rfl, h.1, awaits_setPc h.2 hnone⟩
    · cases hstep

/-- Every clean run of the packed barrier whose waits are on phases begun, read
by its actions, is a run of the phased barrier. -/
theorem packed_phased (ι : Type) [Fintype ι] [DecidableEq ι] (n : ℕ) (hpos : 1 ≤ n)
    (hn : n ≤ max) (ls : List (Label ι)) (s : State ι)
    (h : (system ι n).Path (fun s l => Clean s l ∧ OnBegun s l) (start ι n) ls s) :
    ∃ a, Phased.Run n (Phased.start ι n) ((system ι n).reading actions (start ι n) ls) a ∧
      Reads s a := by
  refine h.simulate (R := Reads) (fun s l s' a hreach hreads hl hstep => ?_) rfl
    ⟨rfl, fun _ => rfl⟩
  have hclean := hreach.mono fun _ _ hl => hl.1
  exact reads_step (cleanInv_of_reachable hpos hn hclean) hreads hl hstep

/-- Thread `0` waits for the phase that thread `1` completes. -/
theorem packed_phased_two : ∃ a : Phased.State (Fin 2),
    Phased.Run 2 (Phased.start (Fin 2) 2)
      [.arrive 1, .await 0 0, .arrive 1, .complete, .resume 0] a := by
  have hrun : (∃ s, (system (Fin 2) 2).exec (fun s l => Clean s l ∧ OnBegun s l)
      (start (Fin 2) 2)
      [.arrive 0 1, .step 0, .ret 0, .wait 0 0, .step 0, .arrive 1 1, .step 1, .step 1,
        .step 0] = some s) ∧
      (system (Fin 2) 2).reading actions (start (Fin 2) 2)
        [.arrive 0 1, .step 0, .ret 0, .wait 0 0, .step 0, .arrive 1 1, .step 1, .step 1,
          .step 0] = [.arrive 1, .await 0 0, .arrive 1, .complete, .resume 0] :=
    ⟨⟨_, rfl⟩, by decide⟩
  obtain ⟨⟨s, hs⟩, hread⟩ := hrun
  obtain ⟨a, hphased, -⟩ :=
    packed_phased (Fin 2) 2 (by decide) (by decide) _ s (System.path_of_exec hs)
  rw [hread] at hphased
  exact ⟨a, hphased⟩

end Libhipcxx.Barrier.Packed
