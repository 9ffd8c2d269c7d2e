import Libhipcxx.Barrier.PackedPhased
import Libhipcxx.Barrier.Team

/-!
# The packed barrier in regular use

Each thread arrives once in a phase, and waits with the token it got, or with the
parity of its phase, before it arrives again; or it leaves with
`arrive_and_drop`, where somebody else stays.

A thread that completes a phase adds the expected count back before it arrives
again, so no phase is completed ahead of that, unless the thread is one that
leaves.
-/

namespace Libhipcxx.Barrier.PackedRegular

open Transition Threads Barrier.Packed

/-- The barrier, its participants, and the token that each of them got last. -/
structure State (ι : Type) where
  barrier : Packed.State ι
  team : ι → Member
  tokens : ι → BitVec 64

variable {ι : Type} [DecidableEq ι]

def teamAfter (s : State ι) : Label ι → ι → Member
  | .arrive t _ => Function.update s.team t ((s.team t).move (.arriving false))
  | .arriveAndDrop t => Function.update s.team t ((s.team t).move .dropping)
  | .step t =>
      match s.barrier.pc t with
      | .dropAdd => Function.update s.team t ((s.team t).move (.arriving true))
      | .arriveAdd _ => Function.update s.team t (s.team t).count
      | .waiting token =>
          if tryWait s.barrier.word token then
            Function.update s.team t ((s.team t).move .free)
          else s.team
      | .waitingParity parity =>
          if tryWaitParity s.barrier.word parity then
            Function.update s.team t ((s.team t).move .free)
          else s.team
      | _ => s.team
  | _ => s.team

def tokensAfter (s : State ι) : Label ι → ι → BitVec 64
  | .ret t =>
      match s.barrier.pc t with
      | .done token => Function.update s.tokens t token
      | _ => s.tokens
  | _ => s.tokens

def step (s : State ι) (l : Label ι) : Option (State ι) :=
  (Packed.step s.barrier l).map fun barrier => ⟨barrier, teamAfter s l, tokensAfter s l⟩

variable [Fintype ι]

/-- Every thread is expected. -/
def start (ι : Type) [Fintype ι] : State ι where
  barrier := Packed.start ι (Fintype.card ι)
  team _ := ⟨0, .free⟩
  tokens _ := 0

def system (ι : Type) [DecidableEq ι] [Fintype ι] : System (State ι) (Label ι) where
  start s := s = start ι
  step := step

/-- A thread arrives once, waits for the phase it arrived in, and leaves only
where somebody stays. -/
def Regular {ι : Type} (s : State ι) : Label ι → Prop
  | .arrive t update => update = 1 ∧ (s.team t).standing = .free
  | .arriveAndDrop t => (s.team t).standing = .free ∧ ∃ u, u ≠ t ∧ (s.team u).leaves = false
  | .wait t token => (s.team t).standing = .arrived false ∧ token = s.tokens t
  | .waitParity t parity => (s.team t).standing = .arrived false ∧ bitOf parity = s.tokens t
  | _ => True

/-- A thread that leaves and has completed a phase adds the expected count again
before the next phase is completed. -/
def LeaverDone {ι : Type} (s : State ι) (l : Label ι) : Prop :=
  CountsLast s.barrier l → ∀ t, s.barrier.completer = some t → (s.team t).leaves = false

def Steady {ι : Type} (s : State ι) (l : Label ι) : Prop := Regular s l ∧ LeaverDone s l

instance (s : State ι) : (l : Label ι) → Decidable (Regular s l)
  | .arrive _ _ => inferInstanceAs (Decidable (_ ∧ _))
  | .arriveAndDrop _ => inferInstanceAs (Decidable (_ ∧ _))
  | .wait _ _ => inferInstanceAs (Decidable (_ ∧ _))
  | .waitParity _ _ => inferInstanceAs (Decidable (_ ∧ _))
  | .step _ | .ret _ => inferInstanceAs (Decidable True)

instance (s : State ι) (l : Label ι) : Decidable (LeaverDone s l) :=
  inferInstanceAs (Decidable (_ → _))

instance (s : State ι) (l : Label ι) : Decidable (Steady s l) :=
  inferInstanceAs (Decidable (_ ∧ _))

/-! ## The invariant -/

/-- The token of the last arrival that has been counted. -/
def Issues (m : Member) (token : BitVec 64) : Prop :=
  ∃ k, m.rounds = k + 1 ∧ token = parityBit k

/-- What a thread's point says of the participant, and of the token it keeps. -/
def Holds (phaseNo : ℕ) (m : Member) (kept : BitVec 64) : Pc → Prop
  | .idle =>
      m.standing = .free ∨ m.standing = .arrived true ∨
        m.standing = .arrived false ∧ Issues m kept
  | .dropAdd => m.standing = .dropping
  | .arriveAdd update => update = 1 ∧ m.standing = .arriving m.leaves
  | .reAdd old =>
      m.standing = .arrived m.leaves ∧ m.rounds ≤ phaseNo ∧ Issues m (old &&& phaseBit)
  | .done token => m.standing = .arrived m.leaves ∧ Issues m token
  | .waiting token => m.standing = .arrived false ∧ token = kept ∧ Issues m kept
  | .waitingParity parity => m.standing = .arrived false ∧ bitOf parity = kept ∧ Issues m kept

theorem Holds.mono {phaseNo phaseNo' : ℕ} {m : Member} {kept : BitVec 64} {pc : Pc}
    (h : Holds phaseNo m kept pc) (hle : phaseNo ≤ phaseNo') : Holds phaseNo' m kept pc := by
  cases pc with
  | reAdd old => exact ⟨h.1, h.2.1.trans hle, h.2.2⟩
  | idle | dropAdd | arriveAdd _ | done _ | waiting _ | waitingParity _ => exact h

structure Inv (s : State ι) : Prop where
  barrier : CleanInv s.barrier
  team : Team s.barrier.ledger s.team
  remains : ∃ t, (s.team t).leaves = false
  threads : ∀ t, Holds s.barrier.ledger.phaseNo (s.team t) (s.tokens t) (s.barrier.pc t)

variable {s s' : State ι} {t : ι} {l : Label ι}

omit [DecidableEq ι] in
theorem inv_start [Nonempty ι] (hcard : Fintype.card ι ≤ max) : Inv (start ι) where
  barrier := cleanInv_start Fintype.card_pos hcard
  team := Team.start ι
  remains := ⟨Classical.arbitrary ι, rfl⟩
  threads _ := Or.inl rfl

omit [Fintype ι] in
theorem holds_update {phaseNo phaseNo' : ℕ} {team : ι → Member} {tokens : ι → BitVec 64}
    {pc : ι → Pc} (h : ∀ u, Holds phaseNo (team u) (tokens u) (pc u)) (hle : phaseNo ≤ phaseNo')
    {m : Member} {kept : BitVec 64} {p : Pc} (hnew : Holds phaseNo' m kept p) (u : ι) :
    Holds phaseNo' (Function.update team t m u) (Function.update tokens t kept u)
      (Function.update pc t p u) := by
  by_cases hu : u = t
  · rw [hu, Function.update_self, Function.update_self, Function.update_self]
    exact hnew
  · rw [Function.update_of_ne hu, Function.update_of_ne hu, Function.update_of_ne hu]
    exact (h u).mono hle

/-- A thread moves. -/
theorem Inv.move (h : Inv s) {m : Member} {kept : BitVec 64} {p : Pc}
    (hteam : s'.team = Function.update s.team t m)
    (htokens : s'.tokens = Function.update s.tokens t kept)
    (hpc : s'.barrier.pc = Function.update s.barrier.pc t p) (hbarrier : CleanInv s'.barrier)
    (hle : s.barrier.ledger.phaseNo ≤ s'.barrier.ledger.phaseNo)
    (hledger : Team s'.barrier.ledger s'.team)
    (hremains : m.leaves = true → (s.team t).leaves = true ∨ ∃ u, u ≠ t ∧ (s.team u).leaves = false)
    (hnew : Holds s'.barrier.ledger.phaseNo m kept p) : Inv s' := by
  refine ⟨hbarrier, hledger, ?_, fun u => ?_⟩
  · rw [hteam]
    by_cases hm : m.leaves = false
    · refine ⟨t, ?_⟩
      rwa [Function.update_self]
    · obtain ⟨u, hu, hleaves⟩ : ∃ u, u ≠ t ∧ (s.team u).leaves = false := by
        rcases hremains (Bool.eq_true_of_not_eq_false hm) with ht | hother
        · obtain ⟨u, hu⟩ := h.remains
          refine ⟨u, ?_, hu⟩
          rintro rfl
          rw [ht] at hu
          cases hu
        · exact hother
      refine ⟨u, ?_⟩
      rwa [Function.update_of_ne hu]
  · rw [hteam, htokens, hpc]
    exact holds_update h.threads hle hnew u

/-! ## A regular step is clean -/

/-- Where a phase is completed, the thread that completed the one before has
been counted again, so it has no second addition ahead. -/
theorem completer_of_last (h : Inv s) (hlast : CountsLast s.barrier l) (hleaver : LeaverDone s l) :
    s.barrier.completer = none := by
  by_contra hsome
  obtain ⟨c, hc⟩ := Option.ne_none_iff_exists'.mp hsome
  have hleaves := hleaver hlast c hc
  obtain ⟨t, update, rfl, hpc, hcounts⟩ := countsLast_iff.mp hlast
  have hlocal := h.barrier.threads c
  have hcompleter := h.threads c
  have hthread := h.threads t
  rw [hpc] at hthread
  obtain ⟨rfl, hstanding⟩ := hthread
  cases hpcc : s.barrier.pc c with
  | reAdd old =>
    rw [hpcc] at hcompleter
    obtain ⟨hcounted, hrounds, -⟩ := hcompleter
    have hne : c ≠ t := by
      rintro rfl
      rw [hpc] at hpcc
      cases hpcc
    have hfull := (h.team.count hstanding).counted_of_full hcounts.2 c
    rw [Function.update_of_ne hne] at hfull
    have hexpected : (s.team c).expected s.barrier.ledger.phaseNo = 1 := by
      rw [Member.expected, hcounted, hleaves]
    have hlater : (s.team c).rounds = s.barrier.ledger.phaseNo + 1 :=
      Member.rounds_of_full hfull hexpected
    omega
  | idle | dropAdd | arriveAdd _ | done _ | waiting _ | waitingParity _ =>
    rw [hpcc] at hlocal
    exact hlocal hc

omit [DecidableEq ι] in
theorem begun_of_issues (h : Inv s) (hstanding : (s.team t).standing = .arrived false)
    {token : BitVec 64} (htoken : Issues (s.team t) token) :
    Begun s.barrier.ledger.phaseNo token := by
  obtain ⟨k, hk, rfl⟩ := htoken
  have hinStep := h.team.inStep t
  rw [Member.InStep, hstanding, hk] at hinStep
  rcases hinStep with hbefore | hnow
  · rw [← hbefore]
    exact Or.inr ⟨Nat.succ_pos k, rfl⟩
  · exact Or.inl (congrArg parityBit (Nat.succ.inj hnow))

omit [DecidableEq ι] in
/-- A thread that is to wait keeps the token of its last arrival. -/
theorem issues_of_idle (h : Inv s) (hpc : s.barrier.pc t = .idle)
    (hstanding : (s.team t).standing = .arrived false) : Issues (s.team t) (s.tokens t) := by
  have hholds := h.threads t
  rw [hpc, Holds, hstanding] at hholds
  rcases hholds with hfree | hleft | ⟨-, hissues⟩
  · cases hfree
  · cases hleft
  · exact hissues

omit [Fintype ι] in
theorem idle_of_wait {barrier : Packed.State ι} {token : BitVec 64}
    (h : Packed.step s.barrier (.wait t token) = some barrier) : s.barrier.pc t = .idle := by
  rw [Packed.step] at h
  split_ifs at h with hidle
  exact hidle

omit [Fintype ι] in
theorem idle_of_waitParity {barrier : Packed.State ι} {parity : Bool}
    (h : Packed.step s.barrier (.waitParity t parity) = some barrier) :
    s.barrier.pc t = .idle := by
  rw [Packed.step] at h
  split_ifs at h with hidle
  exact hidle

omit [DecidableEq ι] in
theorem disciplined_of_regular (h : Inv s) (hregular : Regular s l) :
    Disciplined s.barrier l := by
  cases l with
  | arrive t update =>
    obtain ⟨rfl, hfree⟩ := hregular
    exact h.team.issued_lt hfree
  | arriveAndDrop t => exact h.team.issued_lt hregular.1
  | wait _ _ | waitParity _ _ | step _ | ret _ => trivial

theorem clean_of_steady (h : Inv s) (hl : Steady s l) {barrier : Packed.State ι}
    (hstep : Packed.step s.barrier l = some barrier) :
    Clean s.barrier l ∧ OnBegun s.barrier l := by
  obtain ⟨hregular, hleaver⟩ := hl
  refine ⟨⟨⟨disciplined_of_regular h hregular, ?_⟩, ?_⟩, ?_⟩
  · exact fun hlast => completer_of_last h hlast hleaver
  · obtain ⟨t, ht⟩ := h.remains
    exact fun _ => h.team.drops_lt ht
  · cases l with
    | wait t token =>
      obtain ⟨hstanding, rfl⟩ := hregular
      exact begun_of_issues h hstanding (issues_of_idle h (idle_of_wait hstep) hstanding)
    | waitParity t parity =>
      obtain ⟨hstanding, hparity⟩ := hregular
      have hissues := issues_of_idle h (idle_of_waitParity hstep) hstanding
      rw [← hparity] at hissues
      exact begun_of_issues h hstanding hissues
    | arrive _ _ | arriveAndDrop _ | step _ | ret _ => trivial

/-! ## One step -/

omit [DecidableEq ι] in
/-- A poll tells whether the phase of the participant's arrival is over. -/
theorem tryWaitPhase_iff (h : Inv s) (hstanding : (s.team t).standing = .arrived false)
    {token : BitVec 64} (htoken : Issues (s.team t) token) :
    tryWaitPhase s.barrier.word token = true ↔
      (s.team t).rounds ≤ s.barrier.ledger.phaseNo := by
  obtain ⟨k, hk, rfl⟩ := htoken
  have hinStep := h.team.inStep t
  rw [Member.InStep, hstanding, hk] at hinStep
  rw [tryWaitPhase, phaseBit_of_inv h.barrier.toInv h.barrier.expected, bne_iff_ne, ne_eq,
    parityBit_eq_iff, hk]
  omega

omit [DecidableEq ι] in
theorem tryWait_iff (h : Inv s) (hstanding : (s.team t).standing = .arrived false)
    {token : BitVec 64} (htoken : Issues (s.team t) token) :
    tryWait s.barrier.word token = true ↔ (s.team t).rounds ≤ s.barrier.ledger.phaseNo := by
  have hmask : token &&& phaseBit = token := by
    obtain ⟨k, -, rfl⟩ := htoken
    exact parityBit_and k
  rw [tryWait, hmask]
  exact tryWaitPhase_iff h hstanding htoken

/-- A poll that ends the wait frees the participant. -/
theorem inv_poll (h : Inv s) (hstanding : (s.team t).standing = .arrived false) {poll : Bool}
    (hpoll : poll = true ↔ (s.team t).rounds ≤ s.barrier.ledger.phaseNo)
    (hbarrier : CleanInv (if poll then s.barrier.setPc t .idle else s.barrier)) :
    Inv ⟨if poll then s.barrier.setPc t .idle else s.barrier,
      if poll then Function.update s.team t ((s.team t).move .free) else s.team, s.tokens⟩ := by
  by_cases hover : poll = true
  · rw [if_pos hover] at hbarrier
    rw [if_pos hover, if_pos hover]
    refine h.move (t := t) (m := (s.team t).move .free) rfl (Function.update_eq_self t _).symm rfl
      hbarrier le_rfl (h.team.pass hstanding (hpoll.mp hover)) ?_ (Or.inl rfl)
    intro hleaves
    cases hleaves
  · rw [if_neg hover, if_neg hover]
    exact h

/-- An arrival is counted, and its thread gets the token of the phase. -/
theorem holds_arriveAdd (h : Inv s)
    (hstanding : (s.team t).standing = .arriving (s.team t).leaves)
    (hflips : flips s.barrier.word (inc 1) = true → s.barrier.ledger.CountsLast 1)
    (kept : BitVec 64) :
    Holds (s.barrier.arriveAdd t 1).ledger.phaseNo (s.team t).count kept
      (if flips s.barrier.word (inc 1) then .reAdd s.barrier.word
        else .done (s.barrier.word &&& phaseBit)) := by
  have hrounds := h.team.inStep t
  rw [Member.InStep, hstanding] at hrounds
  have hissues : Issues (s.team t).count (s.barrier.word &&& phaseBit) :=
    ⟨_, congrArg (· + 1) hrounds, phaseBit_of_inv h.barrier.toInv h.barrier.expected⟩
  split_ifs with hlast
  · refine ⟨rfl, ?_, hissues⟩
    rw [arriveAdd_ledger, Ledger.countAndClose, if_pos (hflips hlast)]
    exact (congrArg (· + 1) hrounds).le
  · exact ⟨rfl, hissues⟩

omit [Fintype ι] in
theorem phaseNo_le_arriveAdd (s : Packed.State ι) (t : ι) (update : ℕ) :
    s.ledger.phaseNo ≤ (s.arriveAdd t update).ledger.phaseNo := by
  rw [arriveAdd_ledger, Ledger.countAndClose]
  split_ifs
  · exact Nat.le_succ _
  · exact le_rfl

theorem inv_arriveAdd (h : Inv s) (hpc : s.barrier.pc t = .arriveAdd 1)
    (hstanding : (s.team t).standing = .arriving (s.team t).leaves)
    (hclean : Clean s.barrier (.step t)) (hinv : CleanInv (s.barrier.arriveAdd t 1)) :
    Inv ⟨s.barrier.arriveAdd t 1, Function.update s.team t (s.team t).count, s.tokens⟩ := by
  have hflips := flips_iff h.barrier.toInv hpc fun hlast =>
    hclean.reset_done (countsLast_iff.mpr ⟨t, 1, rfl, hpc, hlast⟩)
  exact h.move rfl (Function.update_eq_self t _).symm rfl hinv (phaseNo_le_arriveAdd _ _ _)
    (h.team.countAndClose hstanding) Or.inl (holds_arriveAdd h hstanding hflips.mp _)

/-- The second addition changes nothing for the participants. -/
theorem inv_reAdd (h : Inv s) {old : BitVec 64} (hpc : s.barrier.pc t = .reAdd old)
    (hinv : CleanInv (s.barrier.reAdd t old)) :
    Inv ⟨s.barrier.reAdd t old, s.team, s.tokens⟩ := by
  have hholds := h.threads t
  rw [hpc] at hholds
  obtain ⟨hstanding, -, hissues⟩ := hholds
  have hledger := reAdd_ledger s.barrier t old
  have hteam : s.team = Function.update s.team t (s.team t) := (Function.update_eq_self t _).symm
  have htokens : s.tokens = Function.update s.tokens t (s.tokens t) :=
    (Function.update_eq_self t _).symm
  refine h.move (p := .done (old &&& phaseBit)) hteam htokens rfl hinv ?_ ?_ Or.inl
    ⟨hstanding, hissues⟩
  · rw [hledger]
  · rw [hledger]
    exact h.team

theorem inv_step (h : Inv s) (hl : Steady s l) (hstep : step s l = some s') : Inv s' := by
  obtain ⟨barrier, hbarrier, rfl⟩ := Option.map_eq_some_iff.mp hstep
  obtain ⟨hclean, -⟩ := clean_of_steady h hl hbarrier
  have hinv := cleanInv_step h.barrier hclean hbarrier
  have hsame (t : ι) : s.team = Function.update s.team t (s.team t) :=
    (Function.update_eq_self t _).symm
  have hkept (t : ι) : s.tokens = Function.update s.tokens t (s.tokens t) :=
    (Function.update_eq_self t _).symm
  cases l with
  | arrive t update =>
    obtain ⟨rfl, hfree⟩ := hl.1
    rw [Packed.step] at hbarrier
    split_ifs at hbarrier with hidle
    obtain rfl := Option.some.inj hbarrier
    refine h.move rfl (hkept t) rfl hinv le_rfl (h.team.issue hfree (Or.inr rfl)) ?_ ⟨rfl, rfl⟩
    intro hleaves
    cases hleaves
  | arriveAndDrop t =>
    obtain ⟨hfree, hother⟩ := hl.1
    rw [Packed.step] at hbarrier
    split_ifs at hbarrier with hidle
    obtain rfl := Option.some.inj hbarrier
    exact h.move rfl (hkept t) rfl hinv le_rfl (h.team.issue hfree (Or.inl rfl))
      (fun _ => Or.inr hother) rfl
  | wait t token =>
    obtain ⟨hstanding, rfl⟩ := hl.1
    have hissues := issues_of_idle h (idle_of_wait hbarrier) hstanding
    rw [Packed.step] at hbarrier
    split_ifs at hbarrier with hidle
    obtain rfl := Option.some.inj hbarrier
    exact h.move (hsame t) (hkept t) rfl hinv le_rfl h.team Or.inl ⟨hstanding, rfl, hissues⟩
  | waitParity t parity =>
    obtain ⟨hstanding, hparity⟩ := hl.1
    have hissues := issues_of_idle h (idle_of_waitParity hbarrier) hstanding
    rw [Packed.step] at hbarrier
    split_ifs at hbarrier with hidle
    obtain rfl := Option.some.inj hbarrier
    exact h.move (hsame t) (hkept t) rfl hinv le_rfl h.team Or.inl ⟨hstanding, hparity, hissues⟩
  | step t =>
    have hholds := h.threads t
    rw [Packed.step] at hbarrier
    change Inv ⟨barrier, teamAfter s (.step t), s.tokens⟩
    rw [teamAfter]
    split at hbarrier
    all_goals rename_i hpc
    all_goals try rw [hpc] at hholds
    all_goals try obtain rfl := Option.some.inj hbarrier
    · rw [hpc]
      exact h.move rfl (hkept t) rfl hinv le_rfl (h.team.drop hholds) (fun _ => Or.inl
        (by rw [Member.leaves, hholds])) ⟨rfl, rfl⟩
    · obtain ⟨rfl, hstanding⟩ := hholds
      rw [hpc]
      exact inv_arriveAdd h hpc hstanding hclean hinv
    · rw [hpc]
      exact inv_reAdd h hpc hinv
    · obtain ⟨hstanding, htoken, hissues⟩ := hholds
      rw [← htoken] at hissues
      rw [hpc]
      exact inv_poll h hstanding (tryWait_iff h hstanding hissues) hinv
    · obtain ⟨hstanding, hparity, hissues⟩ := hholds
      rw [← hparity] at hissues
      rw [hpc]
      exact inv_poll h hstanding (tryWaitPhase_iff h hstanding hissues) hinv
    · cases hbarrier
  | ret t =>
    have hholds := h.threads t
    rw [Packed.step] at hbarrier
    split at hbarrier
    · rename_i token hpc
      obtain rfl := Option.some.inj hbarrier
      have htokens : tokensAfter s (.ret t) = Function.update s.tokens t token := by
        rw [tokensAfter, hpc]
      rw [hpc] at hholds
      obtain ⟨hstanding, hissues⟩ := hholds
      refine h.move (hsame t) htokens rfl hinv le_rfl h.team Or.inl ?_
      cases hleaves : (s.team t).leaves with
      | true => exact Or.inr (Or.inl (hleaves ▸ hstanding))
      | false => exact Or.inr (Or.inr ⟨hleaves ▸ hstanding, hissues⟩)
    · cases hbarrier

theorem inv_of_reachable [Nonempty ι] (hcard : Fintype.card ι ≤ max)
    (h : (system ι).Reachable Steady s) : Inv s := by
  refine h.invariant ?_ ?_
  · rintro s rfl
    exact inv_start hcard
  · intro s l s' hinv hl hstep
    exact inv_step hinv hl hstep

/-! ## What regular use promises -/

/-- The thread's next poll ends its wait. -/
def PollEnds (s : State ι) (t : ι) : Prop :=
  match s.barrier.pc t with
  | .waiting token => tryWait s.barrier.word token = true
  | .waitingParity parity => tryWaitParity s.barrier.word parity = true
  | _ => False

def Waiting (s : State ι) (t : ι) : Prop :=
  match s.barrier.pc t with
  | .waiting _ | .waitingParity _ => True
  | _ => False

/-- What the participants of a barrier owe to one another and to its phase. -/
structure Together (s : State ι) : Prop where
  apart : ∀ t u, (s.team t).leaves = false → (s.team u).leaves = false →
    (s.team t).rounds ≤ (s.team u).rounds + 1
  passed : ∀ t u, (s.team t).standing = .free → (s.team u).leaves = false →
    (s.team t).rounds ≤ (s.team u).rounds
  exact : ∀ t, Waiting s t → (PollEnds s t ↔ (s.team t).rounds ≤ s.barrier.ledger.phaseNo)
  live : (∀ t, Waiting s t ∨ (s.team t).standing = .arrived true) → ∃ t, PollEnds s t

omit [DecidableEq ι] in
/-- A thread in a wait, and what its poll says. -/
theorem exact_of_waiting (h : Inv s) (hwaiting : Waiting s t) :
    (s.team t).standing = .arrived false ∧
      (PollEnds s t ↔ (s.team t).rounds ≤ s.barrier.ledger.phaseNo) := by
  have hholds := h.threads t
  rw [Waiting] at hwaiting
  rw [PollEnds]
  split at hwaiting
  · rename_i token hpc
    rw [hpc] at hholds
    obtain ⟨hstanding, htoken, hissues⟩ := hholds
    rw [← htoken] at hissues
    exact ⟨hstanding, tryWait_iff h hstanding hissues⟩
  · rename_i parity hpc
    rw [hpc] at hholds
    obtain ⟨hstanding, hparity, hissues⟩ := hholds
    rw [← hparity] at hissues
    exact ⟨hstanding, tryWaitPhase_iff h hstanding hissues⟩
  · exact hwaiting.elim

omit [DecidableEq ι] in
/-- A phase has not counted all it expects, so some wait is for an earlier one. -/
theorem exists_pollEnds (h : Inv s)
    (hall : ∀ t, Waiting s t ∨ (s.team t).standing = .arrived true) : ∃ t, PollEnds s t := by
  by_contra hnone
  have hcounted (t : ι) : (s.team t).counted s.barrier.ledger.phaseNo =
      (s.team t).expected s.barrier.ledger.phaseNo := by
    rcases hall t with hwaiting | hleft
    · obtain ⟨hstanding, hexact⟩ := exact_of_waiting h hwaiting
      have hlater : ¬(s.team t).rounds ≤ s.barrier.ledger.phaseNo :=
        fun hover => hnone ⟨t, hexact.mpr hover⟩
      have hinStep := h.team.inStep t
      rw [Member.InStep, hstanding] at hinStep
      rw [Member.counted, Member.expected, hstanding]
      exact if_pos (hinStep.resolve_left fun heq => hlater heq.le)
    · rw [Member.expected, hleft]
  have hfull : s.barrier.ledger.counted = s.barrier.ledger.quota := by
    rw [h.team.counted_eq, h.team.quota_eq]
    exact Finset.sum_congr rfl fun t _ => hcounted t
  have hunfinished := h.barrier.phaseExact.unfinished
  omega

omit [DecidableEq ι] in
theorem Inv.together (h : Inv s) : Together s where
  apart _ _ ht hu := (h.team.bounds ht).2.trans (Nat.succ_le_succ (h.team.bounds hu).1)
  passed _ _ ht hu := (h.team.rounds_of_free ht).le.trans (h.team.bounds hu).1
  exact _ ht := (exact_of_waiting h ht).2
  live := exists_pollEnds h

/-- In every run of a packed barrier in regular use, from any number of threads,
where a leaver that completed a phase is done with it before the next phase is
completed: every step is clean, so the run, read by its actions, is one of the
phased barrier; the threads stay within a phase of one another, a poll tells
whether the phase of the thread's own arrival is over, and where all wait, some
wait ends. -/
theorem packed_regular (ι : Type) [Fintype ι] [DecidableEq ι] [Nonempty ι]
    (hcard : Fintype.card ι ≤ max) (ls : List (Label ι)) (s : State ι)
    (h : (system ι).Path Steady (start ι) ls s) :
    (Packed.system ι (Fintype.card ι)).Path (fun s l => Clean s l ∧ OnBegun s l)
      (Packed.start ι (Fintype.card ι)) ls s.barrier ∧
    (∃ a, Phased.Run (Fintype.card ι) (Phased.start ι (Fintype.card ι))
      ((Packed.system ι (Fintype.card ι)).reading actions
        (Packed.start ι (Fintype.card ι)) ls) a ∧ Reads s.barrier a) ∧
    Together s := by
  have hclean : (Packed.system ι (Fintype.card ι)).Path (fun s l => Clean s l ∧ OnBegun s l)
      (Packed.start ι (Fintype.card ι)) ls s.barrier := by
    refine h.project (f := State.barrier) (fun s l s' hreach hl hstep => ?_) rfl
    obtain ⟨barrier, hbarrier, rfl⟩ := Option.map_eq_some_iff.mp hstep
    exact ⟨clean_of_steady (inv_of_reachable hcard hreach) hl hbarrier, hbarrier⟩
  exact ⟨hclean, packed_phased ι _ Fintype.card_pos hcard ls s.barrier hclean,
    (inv_of_reachable hcard ⟨_, ls, rfl, h⟩).together⟩

/-- Thread `1` leaves while thread `0` waits and completes the phase. -/
theorem packed_regular_two :
    ∃ s : State (Fin 2), s.barrier.ledger.phaseNo = 1 ∧ (s.team 1).leaves = true ∧
      Together s := by
  have hrun : ((system (Fin 2)).exec Steady (start (Fin 2))
      [.arriveAndDrop 1, .step 1, .step 1, .ret 1, .arrive 0 1, .step 0, .step 0, .ret 0,
        .wait 0 0]).map (fun s => (s.barrier.ledger.phaseNo, (s.team 1).leaves)) =
      some (1, true) := by
    decide
  obtain ⟨s, hs, heq⟩ := Option.map_eq_some_iff.mp hrun
  have hregular := packed_regular (Fin 2) (by decide) _ s (System.path_of_exec hs)
  exact ⟨s, congrArg Prod.fst heq, congrArg Prod.snd heq, hregular.2.2⟩

/-- Where a leaver that completed a phase is slower than the others: thread `0`
arrives between the two additions of thread `1`.  It comes back once more, and
then no step of any thread ends its wait. -/
theorem packed_regular_stuck :
    ∃ s : State (Fin 2), (system (Fin 2)).Reachable Regular s ∧ Waiting s 0 ∧
      ∀ l s', Regular s l → step s l = some s' → s' = s := by
  have hrun : ((system (Fin 2)).exec Regular (start (Fin 2))
      [.arrive 0 1, .step 0, .ret 0, .wait 0 0, .arriveAndDrop 1, .step 1, .step 1, .step 0,
        .arrive 0 1, .step 0, .ret 0, .wait 0 phaseBit, .step 1, .ret 1, .step 0,
        .arrive 0 1, .step 0, .ret 0, .wait 0 0]).map
      (fun s => (s.barrier.word, s.barrier.pc 0, s.barrier.pc 1, (s.team 0).standing,
        (s.team 1).standing)) =
      some (1#64 <<< 32 ||| (2 ^ 31 - 1), .waiting 0, .idle, .arrived false, .arrived true) := by
    decide
  obtain ⟨s, hs, heq⟩ := Option.map_eq_some_iff.mp hrun
  obtain ⟨hword, hzero, hone, hwaits, hleft⟩ : s.barrier.word = 1#64 <<< 32 ||| (2 ^ 31 - 1) ∧
      s.barrier.pc 0 = .waiting 0 ∧ s.barrier.pc 1 = .idle ∧
      (s.team 0).standing = .arrived false ∧ (s.team 1).standing = .arrived true := by
    simpa only [Prod.mk.injEq] using heq
  refine ⟨s, System.reachable_of_exec rfl hs, ?_, ?_⟩
  · rw [Waiting, hzero]
    trivial
  · have hbusy (t : Fin 2) (hfree : (s.team t).standing = .free) : False := by
      revert hfree
      rcases Fin.exists_fin_two.mp ⟨t, rfl⟩ with rfl | rfl
      · simp [hwaits]
      · simp [hleft]
    have hwaiting (t : Fin 2) (hidle : s.barrier.pc t = .idle)
        (hstanding : (s.team t).standing = .arrived false) : False := by
      rcases Fin.exists_fin_two.mp ⟨t, rfl⟩ with rfl | rfl
      · simp [hzero] at hidle
      · simp [hleft] at hstanding
    have hpoll : tryWait s.barrier.word 0 = false := by
      rw [hword]
      decide
    intro l s' hl hstep
    obtain ⟨barrier, hbarrier, rfl⟩ := Option.map_eq_some_iff.mp hstep
    cases l with
    | arrive t _ => exact (hbusy t hl.2).elim
    | arriveAndDrop t => exact (hbusy t hl.1).elim
    | wait t _ => exact (hwaiting t (idle_of_wait hbarrier) hl.1).elim
    | waitParity t _ => exact (hwaiting t (idle_of_waitParity hbarrier) hl.1).elim
    | step t =>
      rcases Fin.exists_fin_two.mp ⟨t, rfl⟩ with rfl | rfl
      · simp only [Packed.step, hzero, hpoll, Bool.false_eq_true, ↓reduceIte,
          Option.some.injEq] at hbarrier
        simp only [teamAfter, tokensAfter, hzero, hpoll, Bool.false_eq_true, ↓reduceIte,
          ← hbarrier]
      · simp [Packed.step, hone] at hbarrier
    | ret t =>
      rcases Fin.exists_fin_two.mp ⟨t, rfl⟩ with rfl | rfl
      · simp [Packed.step, hzero] at hbarrier
      · simp [Packed.step, hone] at hbarrier

end Libhipcxx.Barrier.PackedRegular
