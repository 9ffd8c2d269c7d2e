import Libhipcxx.Barrier.GenericExact
import Libhipcxx.Barrier.GenericPhased
import Libhipcxx.Barrier.Team

/-!
# The generic barrier in regular use

Each thread arrives once in a phase and waits with its token, or leaves with
`arrive_and_drop`.  No other condition is needed: such threads never arrive more
often than the phase expects.
-/

namespace Libhipcxx.Barrier.GenericRegular

open Transition Threads Barrier.Generic

/-- The barrier and its participants. -/
structure State (ι : Type) where
  barrier : Generic.State ι
  team : ι → Member

variable {ι : Type} [DecidableEq ι]

def teamAfter (s : State ι) : Label ι → ι → Member
  | .arrive t _ => Function.update s.team t ((s.team t).move (.arriving false))
  | .arriveAndDrop t => Function.update s.team t ((s.team t).move .dropping)
  | .step t =>
      match s.barrier.pc t with
      | .dropExpected => Function.update s.team t ((s.team t).move (.arriving true))
      | .fetchSub _ _ => Function.update s.team t (s.team t).count
      | .waiting token _ =>
          if s.barrier.phase ≠ token then Function.update s.team t ((s.team t).move .free)
          else s.team
      | _ => s.team
  | _ => s.team

def step (s : State ι) (l : Label ι) : Option (State ι) :=
  (Generic.step s.barrier l).map fun barrier => ⟨barrier, teamAfter s l⟩

/-- Every thread is expected. -/
def start (ι : Type) [Fintype ι] : State ι where
  barrier := Generic.start ι (Fintype.card ι)
  team _ := ⟨0, .free⟩

def system (ι : Type) [DecidableEq ι] [Fintype ι] : System (State ι) (Label ι) where
  start s := s = start ι
  step := step

/-- A thread arrives once and waits with its own token; only one that leaves does
without. -/
def Regular {ι : Type} (s : State ι) : Label ι → Prop
  | .arrive t update => update = 1 ∧ (s.team t).standing = .free
  | .arriveAndDrop t => (s.team t).standing = .free
  | .wait t u => t = u ∧ (s.team t).leaves = false
  | .ret t => (s.team t).leaves = true
  | .step _ => True

instance (s : State ι) : (l : Label ι) → Decidable (Regular s l)
  | .arrive _ _ => inferInstanceAs (Decidable (_ ∧ _))
  | .arriveAndDrop _ => inferInstanceAs (Decidable (_ = _))
  | .wait _ _ => inferInstanceAs (Decidable (_ ∧ _))
  | .ret _ => inferInstanceAs (Decidable (_ = _))
  | .step _ => inferInstanceAs (Decidable True)

/-! ## The invariant -/

/-- The last arrival has been counted in this phase. -/
def CountedIn (m : Member) (a : Arrival) : Prop :=
  m.standing = .arrived m.leaves ∧ m.rounds = a.countedIn + 1

/-- What a thread's point says of the participant. -/
def Holds (m : Member) (a : Arrival) : Pc → Prop
  | .idle => m.standing = .free ∨ m.standing = .arrived true
  | .dropExpected => m.standing = .dropping
  | .loadPhase update | .fetchSub update _ => update = 1 ∧ m.standing = .arriving m.leaves
  | .loadExpected _ _ | .completion _ _ | .storeArrived _ _ | .storePhase _ | .done _ =>
      CountedIn m a
  | .waiting _ k => m.standing = .arrived false ∧ m.rounds = k + 1

variable [Fintype ι]

structure Inv (s : State ι) : Prop where
  barrier : Generic.Inv s.barrier
  team : Team s.barrier.ledger s.team
  threads : ∀ t, Holds (s.team t) (s.barrier.arrival t) (s.barrier.pc t)

variable {s s' : State ι} {t : ι} {l : Label ι}

omit [DecidableEq ι] in
theorem inv_start : Inv (start ι) where
  barrier := Generic.inv_start _
  team := Team.start ι
  threads _ := Or.inl rfl

/-- A thread moves. -/
theorem Inv.move (h : Inv s) {m : Member} {a : Arrival} {p : Pc}
    (hteam : s'.team = Function.update s.team t m)
    (harrival : s'.barrier.arrival = Function.update s.barrier.arrival t a)
    (hpc : s'.barrier.pc = Function.update s.barrier.pc t p) (hbarrier : Generic.Inv s'.barrier)
    (hledger : Team s'.barrier.ledger s'.team) (hnew : Holds m a p) : Inv s' := by
  refine ⟨hbarrier, hledger, fun u => ?_⟩
  rw [hteam, harrival, hpc]
  by_cases hu : u = t
  · rw [hu, Function.update_self, Function.update_self, Function.update_self]
    exact hnew
  · rw [Function.update_of_ne hu, Function.update_of_ne hu, Function.update_of_ne hu]
    exact h.threads u

/-- A thread moves after its arrival. -/
theorem Inv.advance (h : Inv s) {barrier : Generic.State ι} {p : Pc}
    (hbarrier : Generic.Inv barrier) (harrival : barrier.arrival = s.barrier.arrival)
    (hpc : barrier.pc = Function.update s.barrier.pc t p) (hledger : Team barrier.ledger s.team)
    (hnew : Holds (s.team t) (s.barrier.arrival t) p) : Inv ⟨barrier, s.team⟩ := by
  refine h.move (t := t) (m := s.team t) (a := s.barrier.arrival t) ?_ ?_ hpc hbarrier hledger hnew
  · exact (Function.update_eq_self t _).symm
  · exact harrival.trans (Function.update_eq_self t _).symm

/-! ## One step -/

omit [DecidableEq ι] in
theorem disciplined_of_regular (h : Inv s) (hregular : Regular s l) :
    Disciplined s.barrier l := by
  cases l with
  | arrive t update =>
    obtain ⟨rfl, hfree⟩ := hregular
    exact ⟨Nat.one_pos, h.team.issued_lt hfree⟩
  | arriveAndDrop t => exact h.team.issued_lt hregular
  | wait _ _ | step _ | ret _ => trivial

omit [DecidableEq ι] in
/-- A poll tells whether the phase of the participant's arrival is over. -/
theorem phase_ne_iff (h : Inv s) {token : Bool} {k : ℕ}
    (hpc : s.barrier.pc t = .waiting token k) :
    (s.team t).standing = .arrived false ∧
      (s.barrier.phase ≠ token ↔ (s.team t).rounds ≤ s.barrier.ledger.phaseNo) := by
  have hholds := h.threads t
  rw [hpc] at hholds
  obtain ⟨hstanding, hrounds⟩ := hholds
  obtain ⟨htoken, hover⟩ := h.barrier.wait_after_completion hpc
  refine ⟨hstanding, fun hphase => hrounds ▸ (hover hphase).1, fun hle => ?_⟩
  have hinStep := h.team.inStep t
  rw [Member.InStep, hstanding, hrounds] at hinStep
  have hnext : s.barrier.ledger.phaseNo = k + 1 := by omega
  rw [h.barrier.phase_eq, htoken, hnext, parity_succ]
  exact Bool.not_ne_self _

theorem inv_arrive (h : Inv s) (hfree : (s.team t).standing = .free)
    (hinv : Generic.Inv (s.barrier.issue t 1 (.loadPhase 1))) :
    Inv ⟨s.barrier.issue t 1 (.loadPhase 1),
      Function.update s.team t ((s.team t).move (.arriving false))⟩ :=
  h.move rfl rfl rfl hinv (h.team.issue hfree (Or.inr rfl)) ⟨rfl, rfl⟩

theorem inv_arriveAndDrop (h : Inv s) (hfree : (s.team t).standing = .free)
    (hinv : Generic.Inv (s.barrier.issue t 1 .dropExpected)) :
    Inv ⟨s.barrier.issue t 1 .dropExpected,
      Function.update s.team t ((s.team t).move .dropping)⟩ :=
  h.move rfl rfl rfl hinv (h.team.issue hfree (Or.inl rfl)) rfl

theorem inv_dropExpected (h : Inv s) (hpc : s.barrier.pc t = .dropExpected)
    (hinv : Generic.Inv (s.barrier.dropExpected t)) :
    Inv ⟨s.barrier.dropExpected t,
      Function.update s.team t ((s.team t).move (.arriving true))⟩ := by
  have hholds := h.threads t
  rw [hpc] at hholds
  exact h.move rfl (Function.update_eq_self t _).symm rfl hinv (h.team.drop hholds) ⟨rfl, rfl⟩

theorem inv_fetchSub (h : Inv s) {update : ℕ} {oldPhase : Bool}
    (hpc : s.barrier.pc t = .fetchSub update oldPhase)
    (hinv : Generic.Inv (s.barrier.fetchSub t update oldPhase)) :
    Inv ⟨s.barrier.fetchSub t update oldPhase, Function.update s.team t (s.team t).count⟩ := by
  have hholds := h.threads t
  rw [hpc] at hholds
  obtain ⟨rfl, hstanding⟩ := hholds
  have hrounds := h.team.inStep t
  rw [Member.InStep, hstanding] at hrounds
  refine h.move rfl rfl rfl hinv (h.team.count hstanding) ⟨rfl, ?_⟩
  exact congrArg (· + 1) hrounds

theorem inv_loadExpected (h : Inv s) {oldPhase : Bool} {result : ℤ}
    (hpc : s.barrier.pc t = .loadExpected oldPhase result)
    (hinv : Generic.Inv (s.barrier.loadExpected t oldPhase result)) :
    Inv ⟨s.barrier.loadExpected t oldPhase result, s.team⟩ := by
  have hholds := h.threads t
  rw [hpc] at hholds
  rw [State.loadExpected] at hinv ⊢
  split_ifs at hinv ⊢
  · exact h.advance (p := .completion oldPhase s.barrier.expected) hinv rfl rfl h.team hholds
  · exact h.advance (p := .done oldPhase) hinv rfl rfl h.team hholds

/-- The phase ends once all that it expects have been counted. -/
theorem inv_storePhase (h : Inv s) {oldPhase : Bool} (hpc : s.barrier.pc t = .storePhase oldPhase)
    (hinv : Generic.Inv (s.barrier.storePhase t oldPhase)) :
    Inv ⟨s.barrier.storePhase t oldPhase, s.team⟩ := by
  have hholds := h.threads t
  have hlocal := h.barrier.threads t
  rw [hpc] at hholds hlocal
  have hsome : s.barrier.closing ≠ none := by
    rw [hlocal.2.1]
    exact Option.some_ne_none _
  have hfull := (full_of_closing h.barrier hsome).1
  exact h.advance (p := .done oldPhase) hinv rfl rfl (h.team.close hfull) hholds

theorem inv_poll (h : Inv s) {token : Bool} {k : ℕ} (hpc : s.barrier.pc t = .waiting token k)
    (hinv : Generic.Inv (if s.barrier.phase ≠ token then s.barrier.setPc t .idle
      else s.barrier)) :
    Inv ⟨if s.barrier.phase ≠ token then s.barrier.setPc t .idle else s.barrier,
      if s.barrier.phase ≠ token then Function.update s.team t ((s.team t).move .free)
      else s.team⟩ := by
  obtain ⟨hstanding, hover⟩ := phase_ne_iff h hpc
  by_cases hphase : s.barrier.phase ≠ token
  · rw [if_pos hphase] at hinv
    rw [if_pos hphase, if_pos hphase]
    exact h.move rfl (Function.update_eq_self t _).symm rfl hinv
      (h.team.pass hstanding (hover.mp hphase)) (Or.inl rfl)
  · rw [if_neg hphase, if_neg hphase]
    exact h

theorem inv_step (h : Inv s) (hl : Regular s l) (hstep : step s l = some s') : Inv s' := by
  obtain ⟨barrier, hbarrier, rfl⟩ := Option.map_eq_some_iff.mp hstep
  have hinv := Generic.inv_step h.barrier (disciplined_of_regular h hl) hbarrier
  cases l with
  | arrive t update =>
    obtain ⟨rfl, hfree⟩ := hl
    rw [Generic.step] at hbarrier
    split_ifs at hbarrier
    obtain rfl := Option.some.inj hbarrier
    exact inv_arrive h hfree hinv
  | arriveAndDrop t =>
    rw [Generic.step] at hbarrier
    split_ifs at hbarrier
    obtain rfl := Option.some.inj hbarrier
    exact inv_arriveAndDrop h hl hinv
  | wait t u =>
    obtain ⟨rfl, hstays⟩ := hl
    have hholds := h.threads t
    rw [Generic.step] at hbarrier
    split at hbarrier
    · rename_i token hpc
      split_ifs at hbarrier
      obtain rfl := Option.some.inj hbarrier
      rw [hpc] at hholds
      obtain ⟨hstanding, hrounds⟩ := hholds
      rw [hstays] at hstanding
      exact h.advance hinv rfl rfl h.team ⟨hstanding, hrounds⟩
    · cases hbarrier
  | step t =>
    have hholds := h.threads t
    rw [Generic.step] at hbarrier
    rw [teamAfter]
    split at hbarrier
    all_goals rename_i hpc
    all_goals try rw [hpc] at hholds
    all_goals try rw [hpc]
    all_goals try obtain rfl := Option.some.inj hbarrier
    · exact inv_dropExpected h hpc hinv
    · exact h.advance hinv rfl rfl h.team hholds
    · exact inv_fetchSub h hpc hinv
    · exact inv_loadExpected h hpc hinv
    · exact h.advance hinv rfl rfl h.team hholds
    · exact h.advance hinv rfl rfl h.team hholds
    · exact inv_storePhase h hpc hinv
    · exact inv_poll h hpc hinv
    · cases hbarrier
  | ret t =>
    have hholds := h.threads t
    rw [Generic.step] at hbarrier
    split at hbarrier
    · rename_i token hpc
      obtain rfl := Option.some.inj hbarrier
      rw [hpc] at hholds
      have hleaves : (s.team t).leaves = true := hl
      refine h.advance hinv rfl rfl h.team (Or.inr ?_)
      rw [hholds.1, hleaves]
    · cases hbarrier

theorem inv_of_reachable (h : (system ι).Reachable Regular s) : Inv s := by
  refine h.invariant ?_ ?_
  · rintro s rfl
    exact inv_start
  · intro s l s' hinv hl hstep
    exact inv_step hinv hl hstep

/-! ## What regular use promises -/

/-- The thread's next poll ends its wait. -/
def PollEnds (s : State ι) (t : ι) : Prop :=
  match s.barrier.pc t with
  | .waiting token _ => s.barrier.phase ≠ token
  | _ => False

def Waiting (s : State ι) (t : ι) : Prop :=
  match s.barrier.pc t with
  | .waiting _ _ => True
  | _ => False

/-- What the participants of a barrier owe to one another and to its phase. -/
structure Together (s : State ι) : Prop where
  apart : ∀ t u, (s.team t).leaves = false → (s.team u).leaves = false →
    (s.team t).rounds ≤ (s.team u).rounds + 1
  passed : ∀ t u, (s.team t).standing = .free → (s.team u).leaves = false →
    (s.team t).rounds ≤ (s.team u).rounds
  completed : ∀ t, (s.team t).standing = .free → (s.team t).rounds ≤ s.barrier.completions
  exact : ∀ t, Waiting s t → (PollEnds s t ↔ (s.team t).rounds ≤ s.barrier.ledger.phaseNo)
  live : (∃ t, Waiting s t) → (∀ t, Waiting s t ∨ s.barrier.pc t = .idle ∧
    (s.team t).standing = .arrived true) → ∃ t, PollEnds s t

omit [DecidableEq ι] in
theorem exact_of_waiting (h : Inv s) (hwaiting : Waiting s t) :
    (s.team t).standing = .arrived false ∧
      (PollEnds s t ↔ (s.team t).rounds ≤ s.barrier.ledger.phaseNo) := by
  rw [Waiting] at hwaiting
  rw [PollEnds]
  split at hwaiting
  · rename_i token k hpc
    exact phase_ne_iff h hpc
  · exact hwaiting.elim

omit [DecidableEq ι] in
/-- Threads that wait or are idle do not close a phase. -/
theorem closing_none (h : Inv s) (hall : ∀ t, Waiting s t ∨ s.barrier.pc t = .idle ∧
    (s.team t).standing = .arrived true) : s.barrier.closing = none := by
  by_contra hsome
  obtain ⟨⟨c, stage⟩, hc⟩ := Option.ne_none_iff_exists'.mp hsome
  have hlocal := h.barrier.threads c
  rcases hall c with hwaiting | ⟨hidle, -⟩
  · rw [Waiting] at hwaiting
    split at hwaiting
    · rename_i token k hpc
      rw [hpc] at hlocal
      exact hlocal.2.2 stage hc
    · exact hwaiting
  · rw [hidle] at hlocal
    exact hlocal stage hc

omit [DecidableEq ι] in
/-- An open phase has not counted all it expects, so some wait is for an earlier
one. -/
theorem exists_pollEnds (h : Inv s) (hsome : ∃ t, Waiting s t)
    (hall : ∀ t, Waiting s t ∨ s.barrier.pc t = .idle ∧ (s.team t).standing = .arrived true) :
    ∃ t, PollEnds s t := by
  by_contra hnone
  have hlater (t : ι) (hwaiting : Waiting s t) : ¬(s.team t).rounds ≤ s.barrier.ledger.phaseNo :=
    fun hover => hnone ⟨t, (exact_of_waiting h hwaiting).2.mpr hover⟩
  have hcounted (t : ι) : (s.team t).counted s.barrier.ledger.phaseNo =
      (s.team t).expected s.barrier.ledger.phaseNo := by
    rcases hall t with hwaiting | ⟨-, hleft⟩
    · have hstanding := (exact_of_waiting h hwaiting).1
      have hinStep := h.team.inStep t
      rw [Member.InStep, hstanding] at hinStep
      rw [Member.counted, Member.expected, hstanding]
      exact if_pos (hinStep.resolve_left fun heq => hlater t hwaiting heq.le)
    · rw [Member.expected, hleft]
  have hfull : s.barrier.ledger.counted = s.barrier.ledger.quota := by
    rw [h.team.counted_eq, h.team.quota_eq]
    exact Finset.sum_congr rfl fun t _ => hcounted t
  obtain ⟨t, hwaiting⟩ := hsome
  have hstays : (s.team t).leaves = false := by
    rw [Member.leaves, (exact_of_waiting h hwaiting).1]
  have hexpected := h.team.drops_lt hstays
  have hopen := h.barrier.open_iff.mp (closing_none h hall)
  omega

omit [DecidableEq ι] in
theorem Inv.together (h : Inv s) : Together s where
  apart _ _ ht hu := (h.team.bounds ht).2.trans (Nat.succ_le_succ (h.team.bounds hu).1)
  passed _ _ ht hu := (h.team.rounds_of_free ht).le.trans (h.team.bounds hu).1
  completed t ht := by
    have hrounds := h.team.rounds_of_free ht
    have honce := h.barrier.completion_once
    omega
  exact _ ht := (exact_of_waiting h ht).2
  live := exists_pollEnds h

/-- In every run of a generic barrier in regular use, from any number of threads:
no thread arrives more often than the phase expects, so the run, read by its
actions, is one of the phased barrier; the threads stay within a phase of one
another; the completion function has run for each phase that a thread has left
behind; a poll tells whether the phase of the thread's own arrival is over; and
where all wait, some wait ends. -/
theorem generic_regular (ι : Type) [Fintype ι] [DecidableEq ι] (ls : List (Label ι)) (s : State ι)
    (h : (system ι).Path Regular (start ι) ls s) :
    (Generic.system ι (Fintype.card ι)).Path Disciplined
      (Generic.start ι (Fintype.card ι)) ls s.barrier ∧
    Phased.Run (Fintype.card ι) (Phased.start ι (Fintype.card ι))
      ((Generic.system ι (Fintype.card ι)).reading actions
        (Generic.start ι (Fintype.card ι)) ls) s.barrier.phased ∧
    Together s := by
  have hdisciplined : (Generic.system ι (Fintype.card ι)).Path Disciplined
      (Generic.start ι (Fintype.card ι)) ls s.barrier := by
    refine h.project (f := State.barrier) (fun s l s' hreach hl hstep => ?_) rfl
    obtain ⟨barrier, hbarrier, rfl⟩ := Option.map_eq_some_iff.mp hstep
    exact ⟨disciplined_of_regular (inv_of_reachable hreach) hl, hbarrier⟩
  exact ⟨hdisciplined, generic_phased ι _ ls s.barrier hdisciplined,
    (inv_of_reachable ⟨_, ls, rfl, h⟩).together⟩

/-- Thread `1` leaves while thread `0` waits. -/
theorem generic_regular_two :
    ∃ s : State (Fin 2), s.barrier.ledger.phaseNo = 1 ∧ (s.team 1).leaves = true ∧
      Together s := by
  have hrun : ((system (Fin 2)).exec Regular (start (Fin 2))
      [.arrive 0 1, .step 0, .step 0, .step 0, .wait 0 0, .arriveAndDrop 1, .step 1, .step 1,
        .step 1, .step 1, .step 1, .step 1, .step 1, .ret 1]).map
      (fun s => (s.barrier.ledger.phaseNo, (s.team 1).leaves)) = some (1, true) := by
    decide
  obtain ⟨s, hs, heq⟩ := Option.map_eq_some_iff.mp hrun
  have hregular := generic_regular (Fin 2) _ s (System.path_of_exec hs)
  exact ⟨s, congrArg Prod.fst heq, congrArg Prod.snd heq, hregular.2.2⟩

end Libhipcxx.Barrier.GenericRegular
