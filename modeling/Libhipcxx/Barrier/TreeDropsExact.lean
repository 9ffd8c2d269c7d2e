import Libhipcxx.Barrier.Phased
import Libhipcxx.Barrier.TreeDropsPhase

/-!
# Runs of the tree barrier with drops

Where the hints leave room, each phase is completed once, by its last arrival,
and with the expected count of the next phase in place before a wait can return.
Read by its actions such a run is one of the phased barrier.
-/

namespace Libhipcxx.Barrier.TreeDrops

open Transition Threads Barrier.Tree Tournament

variable {ι : Type} [Fintype ι] {size : ℕ} {taken : ℕ → ℕ → ℕ} {s s' : State ι} {t : ι}

theorem tokenOf_ne {j k : ℕ} (h : tokenOf j ≠ tokenOf k) : k ≠ j := by
  rintro rfl
  exact h rfl

theorem trues_le (h : Inv size taken s) : s.tree.account.trues ≤ 1 := by
  rcases Nat.eq_zero_or_pos s.quota with hzero | hpos
  · have hnone : total winning s.tree.pc = 0 :=
      total_const_zero _ _ fun u => congrArg winning (h.idle_of_zero hzero u)
    rw [h.tree.counted.trues_eq, hnone]
    exact Nat.zero_le 1
  · exact trues_le_one h.tree hpos

/-- A thread past its completion function has won. -/
theorem closed_of_closing (h : Inv size taken s) (hclosing : s.closing ≠ none) :
    0 < s.quota ∧ Closed s.quota s.tree.account := by
  obtain ⟨u, hu⟩ := Option.ne_none_iff_exists'.mp hclosing
  obtain ⟨htrues, hpos⟩ := trues_of_winning h (winning_of_closing h hu)
  exact ⟨hpos, closed_of_trues h.tree hpos htrues⟩

theorem lt_of_poll (h : Inv size taken s) {token : Phase} {k : ℕ}
    (hstage : s.stage t = .waiting token k) (hphase : s.tree.phase ≠ token) : k < s.phaseNo := by
  have hlocal := h.threads t
  rw [hstage] at hlocal
  obtain ⟨-, -, rfl, hle⟩ := hlocal
  rw [h.phase_eq] at hphase
  exact lt_of_le_of_ne hle (tokenOf_ne hphase)

/-! ## Arrivals return, and the last one ends the phase -/

/-- A thread with an arrival at a ticket is at no other stage. -/
theorem stage_of_climb (h : Inv size taken s) {c : Climb}
    (hclimb : (s.tree.pc t).climb = some c) : s.stage t = .tree := by
  have hlocal := h.threads t
  have hbusy : s.tree.pc t ≠ .idle := by
    intro hidle
    rw [hidle] at hclimb
    cases hclimb
  cases hstage : s.stage t with
  | tree => rfl
  | dropped =>
    rw [hstage] at hlocal
    exact absurd hlocal.2 hbusy
  | adjusted | cleared =>
    rw [hstage] at hlocal
    have hwinning := hlocal.2
    rw [winning_of_climb hclimb] at hwinning
    cases hwinning
  | waiting token k =>
    rw [hstage] at hlocal
    exact absurd hlocal.2.1 hbusy

section Ends

variable [DecidableEq ι] {update : ℕ} {oldPhase : Phase}

theorem exists_nearer (hle : size ≤ 2 ^ 32) (h : Inv size taken s) {c : Climb}
    (hclimb : (s.tree.pc t).climb = some c) :
    ∃ s', step size s (.step t) = some s' ∧ Nearer s.quota s.tree s'.tree t := by
  have hstage := stage_of_climb h hclimb
  have hrange := inRange_mono (inRange_of_climb h hle hclimb) h.quota_le
  have hquota := h.quota_le.trans hle
  cases hpc : s.tree.pc t with
  | attempt update c' =>
    obtain rfl : c' = c := by
      rw [hpc] at hclimb
      exact Option.some.inj hclimb
    refine ⟨s.setTree (s.tree.attempt t update c'), ?_, nearer_of_attempt hquota h.tree hpc⟩
    simp only [step, h.tree.unfailed, Bool.false_eq_true, if_false, act, hstage, climb, hpc,
      if_pos hrange]
  | second update c' =>
    obtain rfl : c' = c := by
      rw [hpc] at hclimb
      exact Option.some.inj hclimb
    refine ⟨s.setTree (s.tree.second t update c'), ?_, nearer_of_second hquota h.tree hpc⟩
    simp only [step, h.tree.unfailed, Bool.false_eq_true, if_false, act, hstage, climb, hpc,
      if_pos hrange]
  | idle | ready | completion =>
    rw [hpc] at hclimb
    cases hclimb

/-- Steps of the thread alone end the phase, with its completion run. -/
def EndsPhase (size : ℕ) (s : State ι) (t : ι) : Prop :=
  ∃ ls s', (∀ l ∈ ls, l = .step t) ∧
    System.Path (system ι size) (fun s l => Contract s l ∧ HintsFit s l) s ls s' ∧
    s'.phaseNo = s.phaseNo + 1 ∧ s'.completions = s'.phaseNo

omit [Fintype ι] in
theorem single_step (hpc : s.tree.pc t = .completion update oldPhase)
    (hstep : step size s (.step t) = some s') :
    System.Path (system ι size) (fun s l => Contract s l ∧ HintsFit s l) s [.step t] s' := by
  refine System.Path.single ⟨trivial, ?_⟩ hstep
  rw [HintsFit, hpc]
  trivial

omit [Fintype ι] in
theorem EndsPhase.of_step (hpc : s.tree.pc t = .completion update oldPhase)
    (hstep : step size s (.step t) = some s') (hsame : s'.phaseNo = s.phaseNo)
    (h : EndsPhase size s' t) : EndsPhase size s t := by
  obtain ⟨ls, s'', hlabels, hpath, hphaseNo, hcompletions⟩ := h
  refine ⟨.step t :: ls, s'', fun l hl => ?_, (single_step hpc hstep).append hpath, ?_,
    hcompletions⟩
  · rcases List.mem_cons.mp hl with rfl | hl
    · rfl
    · exact hlabels l hl
  · rw [hphaseNo, hsame]

theorem Inv.ends_cleared (h : Inv size taken s) (hstage : s.stage t = .cleared)
    (hpc : s.tree.pc t = .completion update oldPhase) : EndsPhase size s t := by
  have hstep : step size s (.step t) = some (s.storePhase t update oldPhase) := by
    simp only [step, h.tree.unfailed, Bool.false_eq_true, if_false, act, hstage, hpc]
  have hlocal := h.threads t
  rw [hstage] at hlocal
  have hsome : s.closing ≠ none := by
    rw [hlocal.1]
    exact Option.some_ne_none t
  refine ⟨[.step t], s.storePhase t update oldPhase, fun l hl => List.mem_singleton.mp hl,
    single_step hpc hstep, rfl, ?_⟩
  exact h.completions_eq.trans (by rw [if_neg hsome]; rfl)

theorem Inv.ends_adjusted (h : Inv size taken s) (hstage : s.stage t = .adjusted)
    (hpc : s.tree.pc t = .completion update oldPhase) : EndsPhase size s t := by
  have hstep : step size s (.step t) = some (s.clear t) := by
    simp only [step, h.tree.unfailed, Bool.false_eq_true, if_false, act, hstage]
  have hcleared : (s.clear t).stage t = .cleared := Function.update_self ..
  have hends := (inv_clear h hstage).ends_cleared hcleared hpc
  exact hends.of_step hpc hstep rfl

theorem Inv.ends_tree (h : Inv size taken s) (hstage : s.stage t = .tree)
    (hpc : s.tree.pc t = .completion update oldPhase) : EndsPhase size s t := by
  have hstep : step size s (.step t) = some (s.adjust t) := by
    simp only [step, h.tree.unfailed, Bool.false_eq_true, if_false, act, hstage, climb, hpc]
  have hadjusted : (s.adjust t).stage t = .adjusted := Function.update_self ..
  have hends := (inv_adjust h hstage hpc).ends_adjusted hadjusted hpc
  exact hends.of_step hpc hstep rfl

/-- From each stage of the arrival that returned true. -/
theorem Inv.endsPhase (h : Inv size taken s) (hpc : s.tree.pc t = .completion update oldPhase) :
    EndsPhase size s t := by
  cases hstage : s.stage t with
  | tree => exact h.ends_tree hstage hpc
  | adjusted => exact h.ends_adjusted hstage hpc
  | cleared => exact h.ends_cleared hstage hpc
  | dropped =>
    have hlocal := h.threads t
    rw [hstage, hpc] at hlocal
    exact absurd hlocal.2 Pc.noConfusion
  | waiting token k =>
    have hlocal := h.threads t
    rw [hstage, hpc] at hlocal
    exact absurd hlocal.2.1 Pc.noConfusion

end Ends

/-- What the barrier owes its users in a state.  The arrivals asked for are those
of `arrive_and_drop` still to be made, those to begin, those at a ticket, and
those that have returned.  The one that returned true is at the completion until
the phase is stored, which its own steps bring about. -/
structure Safe [DecidableEq ι] (size : ℕ) (s : State ι) : Prop where
  unfailed : s.tree.failed = false
  inRange : ∀ t c, (s.tree.pc t).climb = some c → c.InRange size
  issued_eq : s.issued = total leaving s.stage + total unbegun s.tree.pc +
    total climbing s.tree.pc + s.tree.account.returned
  issued_le : s.issued ≤ s.quota
  nearer : ∀ t c, (s.tree.pc t).climb = some c →
    ∃ s', step size s (.step t) = some s' ∧ Nearer s.quota s.tree s'.tree t
  trues_eq : s.tree.account.trues = total winning s.tree.pc
  ends : ∀ t update oldPhase, s.tree.pc t = .completion update oldPhase → EndsPhase size s t
  at_most_once : s.tree.account.trues ≤ 1
  after_all : 0 < s.tree.account.trues → s.tree.account.starts.length = s.quota
  at_least_once : 0 < s.quota → s.tree.account.returned = s.quota → s.tree.account.trues = 1
  completion_once : s.completions = s.phaseNo ∨
    s.completions = s.phaseNo + 1 ∧ s.tree.account.returned = s.quota
  expected_of_begin : ∀ t update oldPhase, s.tree.pc t = .ready (update + 1) oldPhase →
    s.expected = s.quota ∧ oldPhase = tokenOf s.phaseNo
  restored_before_flip : ∀ t, s.stage t = .cleared →
    s.completions = s.phaseNo + 1 ∧ s.expected = s.quota - s.drops ∧ s.adjustment = 0
  wait_after_completion : ∀ t token k, s.stage t = .waiting token k →
    s.tree.phase ≠ token → k < s.phaseNo ∧ k < s.completions
  finished : ∀ p ∈ s.finished, Closed p.1 p.2

theorem Inv.safe [DecidableEq ι] (hle : size ≤ 2 ^ 32) (h : Inv size taken s) : Safe size s where
  unfailed := h.tree.unfailed
  inRange _ _ hclimb := inRange_mono (inRange_of_climb h hle hclimb) h.quota_le
  issued_eq := by
    have hissued := h.issued_eq
    have hcalled := h.tree.counted.called_eq
    have hreturned := h.tree.counted.returned_eq
    omega
  issued_le := h.issued_le
  nearer _ _ hclimb := exists_nearer hle h hclimb
  trues_eq := h.tree.counted.trues_eq
  ends _ _ _ hpc := h.endsPhase hpc
  at_most_once := trues_le h
  after_all htrues := by
    rcases Nat.eq_zero_or_pos s.quota with hzero | hpos
    · have hissued := h.issued_eq
      have hissued_le := h.issued_le
      have hcalled := h.tree.counted.called_eq
      omega
    · exact all_started h.tree hpos htrues
  at_least_once hpos := trues_of_returned h.tree hpos
  completion_once := by
    have hcompletions := h.completions_eq
    split_ifs at hcompletions with hclosing
    · exact Or.inl hcompletions
    · exact Or.inr ⟨hcompletions, (closed_of_closing h hclosing).2.2.1⟩
  expected_of_begin t update oldPhase hpc := by
    have hunbegun : 0 < unbegun (s.tree.pc t) := by
      rw [hpc]
      exact Nat.succ_pos update
    have hlocal := h.tree.threads t
    rw [hpc] at hlocal
    exact ⟨h.expected_eq.trans (if_pos (closing_none h (Or.inr (Or.inl hunbegun)))),
      hlocal.2.trans h.phase_eq⟩
  restored_before_flip t hstage := by
    have hlocal := h.threads t
    rw [hstage] at hlocal
    have hsome : s.closing ≠ none := by
      rw [hlocal.1]
      exact Option.some_ne_none t
    refine ⟨h.completions_eq.trans (by rw [if_neg hsome]), h.expected_eq.trans (if_neg hsome), ?_⟩
    rw [h.adjustment_eq, hlocal.1, adjustmentValue, if_pos hstage]
  wait_after_completion t token k hstage hphase := by
    have hlt := lt_of_poll h hstage hphase
    have hcompletions := h.completions_eq
    exact ⟨hlt, by omega⟩
  finished := h.finished

/-- In a run whose hints leave room, every state is as it should be, also where
participants drop. -/
theorem tree_drops_safe (ι : Type) [Fintype ι] [DecidableEq ι] (n : ℕ) (hle : n ≤ 2 ^ 32)
    (s : State ι) (h : (system ι n).Reachable (fun s l => Contract s l ∧ HintsFit s l) s) :
    Safe n s := by
  obtain ⟨taken, hinv⟩ := inv_of_reachable hle h
  exact hinv.safe hle

/-- One of two participants drops.  Before the flip the expected count is that of
the next phase. -/
theorem tree_drops_safe_two : ∃ s : State (Fin 2),
    (system (Fin 2) 2).exec (fun s l => Contract s l ∧ HintsFit s l) (start 2 fun _ => 0)
      [.arriveAndDrop 0, .step 0, .step 0, .arrive 1 1, .step 1, .step 0, .step 1, .step 1,
        .step 1, .step 1] = some s ∧
    s.stage 1 = .cleared ∧ s.expected = 1 ∧ Safe 2 s := by
  have hrun : ((system (Fin 2) 2).exec (fun s l => Contract s l ∧ HintsFit s l)
      (start 2 fun _ => 0)
      [.arriveAndDrop 0, .step 0, .step 0, .arrive 1 1, .step 1, .step 0, .step 1, .step 1,
        .step 1, .step 1]).map (fun s => (s.stage 1, s.expected)) = some (.cleared, 1) := by
    decide
  obtain ⟨s, hs, heq⟩ := Option.map_eq_some_iff.mp hrun
  have hsafe : Safe 2 s :=
    tree_drops_safe (Fin 2) 2 (by decide) s (System.reachable_of_exec ⟨_, rfl⟩ hs)
  exact ⟨s, hs, congrArg Prod.fst heq, congrArg Prod.snd heq, hsafe⟩

/-! ## As a phased barrier -/

/-- The phase a wait is for. -/
def awaited : Stage → Option ℕ
  | .waiting _ k => some k
  | _ => none

/-- The state that users see. -/
def State.phased {ι : Type} (s : State ι) : Phased.State ι where
  phaseNo := s.phaseNo
  expected := s.quota
  arrived := s.tree.account.returned
  leaving := s.drops
  awaits := awaited ∘ s.stage

variable [DecidableEq ι]

/-- The actions of a step.  An arrival is one that returns. -/
def actions {ι : Type} [DecidableEq ι] (size : ℕ) (s : State ι) : Label ι → List (Phased.Action ι)
  | .wait t k => [.await t k]
  | .arriveAndDrop _ => [.leave]
  | .step t =>
      match s.stage t with
      | .tree =>
          match climb size s t with
          | some s' =>
              if s'.tree.account.returned = s.tree.account.returned then [] else [.arrive 1]
          | none => []
      | .cleared => [.complete]
      | .waiting token _ => if s.tree.phase ≠ token then [.resume t] else []
      | .dropped | .adjusted => []
  | _ => []

variable {n update : ℕ}

omit [Fintype ι] in
theorem awaits_update {stages : ι → Stage} {stage : Stage}
    (h : awaited stage = awaited (stages t)) :
    awaited ∘ Function.update stages t stage = awaited ∘ stages := by
  rw [Function.comp_update, h]
  exact Function.update_eq_self t (awaited ∘ stages)

omit [Fintype ι] [DecidableEq ι] in
theorem awaits_none (hstage : s.stage t = .tree) : s.phased.awaits t = none := by
  simp only [State.phased, Function.comp_apply, hstage, awaited]

omit [Fintype ι] in
/-- What an access of an arrival changes. -/
theorem climb_frame (hclimb : climb size s t = some s') :
    (s'.tree.account.returned = s.tree.account.returned ∨
      s'.tree.account.returned = s.tree.account.returned + 1) ∧
    s'.phaseNo = s.phaseNo ∧ s'.quota = s.quota ∧ s'.drops = s.drops ∧
    (s'.stage = s.stage ∨ s'.stage = Function.update s.stage t .adjusted) := by
  rcases climb_cases hclimb with ⟨update, oldPhase, hpc, rfl⟩ | ⟨update, c, hpc, rfl⟩ |
    ⟨update, c, hpc, rfl⟩ | ⟨update, oldPhase, hpc, rfl⟩
  · refine ⟨?_, rfl, rfl, rfl, Or.inl rfl⟩
    simp only [State.begin, State.setTree]
    split_ifs
    · exact (frame_begin _ s.tree t update oldPhase).returned
    · exact (frame_fail s.tree t).returned
  · refine ⟨?_, rfl, rfl, rfl, Or.inl rfl⟩
    simp only [State.setTree]
    split_ifs
    · exact (frame_attempt s.tree t update c).returned
    · exact (frame_fail s.tree t).returned
  · refine ⟨?_, rfl, rfl, rfl, Or.inl rfl⟩
    simp only [State.setTree]
    split_ifs
    · exact (frame_second s.tree t update c).returned
    · exact (frame_fail s.tree t).returned
  · exact ⟨Or.inl rfl, rfl, rfl, rfl, Or.inr rfl⟩

theorem run_climb {taken' : ℕ → ℕ → ℕ} (h' : Inv size taken' s') (hstage : s.stage t = .tree)
    (hclimb : climb size s t = some s') :
    Phased.Run n s.phased
      (if s'.tree.account.returned = s.tree.account.returned then [] else [.arrive 1])
      s'.phased := by
  obtain ⟨hreturned, hphaseNo, hquota, hdrops, hstages⟩ := climb_frame hclimb
  have hawaits : awaited ∘ s'.stage = awaited ∘ s.stage := by
    rcases hstages with heq | heq
    · rw [heq]
    · rw [heq, awaits_update]
      rw [hstage]
      rfl
  have hphased : s'.phased = { s.phased with arrived := s'.tree.account.returned } := by
    rw [State.phased, State.phased, hphaseNo, hquota, hdrops, hawaits]
  rw [hphased]
  split_ifs with hsame
  · rw [hsame]
    exact Phased.Run.silent rfl
  · have hone := hreturned.resolve_left hsame
    refine Phased.Run.arrive ?_ (by rw [hone]; rfl)
    -- the arrivals that have returned are among those asked for
    have hstarts := h'.tree.counted.returned_eq
    have hcalled := h'.tree.counted.called_eq
    have hissued := h'.issued_eq
    have hissued_le := h'.issued_le
    simp only [State.phased]
    omega

theorem run_drop (h : Inv size taken s) (hidle : s.Idle t) (hquota : s.issued + 1 ≤ s.quota) :
    Phased.Run n s.phased [.leave] (s.drop t).phased := by
  have hdrops := h.drops_le
  have hawaits : awaited .dropped = awaited (s.stage t) := by
    rw [hidle.1]
    rfl
  apply Phased.Run.leave
  · simp only [State.phased]
    omega
  · simp only [State.phased, State.drop, State.setStage, awaits_update hawaits, Phased.State.leave]

theorem run_storePhase (h : Inv size taken s) (hstage : s.stage t = .cleared)
    {oldPhase : Phase} : Phased.Run n s.phased [.complete] (s.storePhase t update oldPhase).phased := by
  have hlocal := h.threads t
  rw [hstage] at hlocal
  have hsome : s.closing ≠ none := by
    rw [hlocal.1]
    exact Option.some_ne_none t
  obtain ⟨hpos, hclosed⟩ := closed_of_closing h hsome
  have hawaits : awaited .tree = awaited (s.stage t) := by
    rw [hstage]
    rfl
  refine Phased.Run.complete hpos hclosed.2.1 ?_
  simp only [State.phased, State.storePhase, State.setStage, awaits_update hawaits,
    Phased.State.complete, Tree.State.complete, Account.fresh]

theorem run_poll (h : Inv size taken s) {token : Phase} {k : ℕ}
    (hstage : s.stage t = .waiting token k) :
    Phased.Run n s.phased (if s.tree.phase ≠ token then [.resume t] else [])
      (s.poll t token).phased := by
  rw [State.poll]
  split_ifs with hphase
  · have hawaits : s.phased.awaits t = some k := by
      simp only [State.phased, Function.comp_apply, hstage, awaited]
    refine Phased.Run.resume hawaits (lt_of_poll h hstage hphase) ?_
    simp only [State.phased, State.setStage, Function.comp_update, Phased.State.setAwaits, awaited]
  · exact Phased.Run.silent rfl

theorem run_step {taken' : ℕ → ℕ → ℕ} (h : Inv size taken s) (h' : Inv size taken' s')
    {l : Label ι} (hcontract : Contract s l) (hstep : step size s l = some s') :
    Phased.Run n s.phased (actions size s l) s'.phased := by
  rcases step_cases hstep with ⟨t, node, rfl, -, rfl⟩ | ⟨t, update, rfl, hidle, rfl⟩ |
    ⟨t, rfl, hidle, rfl⟩ | ⟨t, k, rfl, hidle, rfl⟩ | ⟨t, rfl, hstage, hclimb⟩ |
    ⟨t, rfl, hstage, rfl⟩ | ⟨t, rfl, hstage, rfl⟩ | ⟨t, update, oldPhase, rfl, hstage, hpc, rfl⟩ |
    ⟨t, token, k, rfl, hstage, rfl⟩
  · exact Phased.Run.silent rfl
  · apply Phased.Run.silent
    rw [State.arrive, Tree.State.call]
    split_ifs <;> rfl
  · exact run_drop h hidle hcontract
  · refine Phased.Run.await (awaits_none hidle.1) hcontract ?_
    simp only [State.phased, State.setStage, Function.comp_update, Phased.State.setAwaits, awaited]
  · simp only [actions, hstage, hclimb]
    exact run_climb h' hstage hclimb
  · have hawaits : awaited .tree = awaited (s.stage t) := by
      rw [hstage]
      rfl
    simp only [actions, hstage]
    apply Phased.Run.silent
    simp only [State.phased, State.arriveDropped, State.setStage, awaits_update hawaits,
      Tree.State.call, if_pos Nat.one_pos, Account.call_returned]
  · have hawaits : awaited .cleared = awaited (s.stage t) := by
      rw [hstage]
      rfl
    simp only [actions, hstage]
    apply Phased.Run.silent
    simp only [State.phased, State.clear, State.setStage, awaits_update hawaits]
  · simp only [actions, hstage]
    exact run_storePhase h hstage
  · simp only [actions, hstage]
    exact run_poll h hstage

/-- Every run of the tree barrier whose hints leave room, read by its actions, is
a run of the phased barrier. -/
theorem tree_phased (ι : Type) [Fintype ι] [DecidableEq ι] (n : ℕ) (hle : n ≤ 2 ^ 32)
    (favorite : ι → ℕ) (ls : List (Label ι)) (s : State ι)
    (h : (system ι n).Path (fun s l => Contract s l ∧ HintsFit s l) (start n favorite) ls s) :
    Phased.Run n (Phased.start ι n)
      ((system ι n).reading (actions n) (start n favorite) ls) s.phased := by
  have hstart : (system ι n).start (start n favorite) := ⟨favorite, rfl⟩
  refine h.simulate_map (f := State.phased) (fun s l s' hreach hcond hstep => ?_) hstart
  obtain ⟨taken, hinv⟩ := inv_of_reachable hle hreach
  obtain ⟨taken', hinv'⟩ := inv_step hinv hle hcond hstep
  exact run_step hinv hinv' hcond.1 hstep

/-- Thread `0` drops and waits for the phase that thread `1` completes, which then
arrives alone. -/
theorem tree_phased_two : ∃ a : Phased.State (Fin 2),
    Phased.Run 2 (Phased.start (Fin 2) 2)
      [.leave, .arrive 1, .await 0 0, .arrive 1, .complete, .resume 0, .arrive 1] a := by
  have hrun : ((system (Fin 2) 2).exec (fun s l => Contract s l ∧ HintsFit s l)
      (start 2 fun _ => 0)
      [.arriveAndDrop 0, .step 0, .step 0, .arrive 1 1, .step 1, .step 0, .wait 0 0, .step 0,
        .step 1, .step 1, .step 1, .step 1, .step 1, .step 0, .arrive 1 1, .step 1]).isSome = true ∧
      (system (Fin 2) 2).reading (actions 2) (start 2 fun _ => 0)
        [.arriveAndDrop 0, .step 0, .step 0, .arrive 1 1, .step 1, .step 0, .wait 0 0, .step 0,
          .step 1, .step 1, .step 1, .step 1, .step 1, .step 0, .arrive 1 1, .step 1] =
        [.leave, .arrive 1, .await 0 0, .arrive 1, .complete, .resume 0, .arrive 1] := by
    decide
  obtain ⟨s, hs⟩ := Option.isSome_iff_exists.mp hrun.1
  have hphased := tree_phased (Fin 2) 2 (by decide) (fun _ => 0) _ s (System.path_of_exec hs)
  rw [hrun.2] at hphased
  exact ⟨_, hphased⟩

end Libhipcxx.Barrier.TreeDrops
