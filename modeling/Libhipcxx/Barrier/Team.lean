import Libhipcxx.Barrier.Ledger

/-!
# The participants of a barrier

Each of a team of threads arrives once in a phase and waits for the end of that
phase before it arrives again, or leaves with its last arrival.  The members are
counted with the ledger of the barrier: who is expected, who has been counted,
and who leaves.

A phase can be closed only when every member that is expected has been counted
in it.  So the members are never more than one phase apart.
-/

namespace Libhipcxx.Barrier

open Threads

/-- Where a participant stands between two of its arrivals.  The flag says that
it leaves. -/
inductive Standing where
  | free
  | dropping
  | arriving (leaves : Bool)
  | arrived (leaves : Bool)
  deriving DecidableEq

/-- A participant, and how many arrivals of it have been counted. -/
structure Member where
  rounds : ℕ
  standing : Standing
  deriving DecidableEq

namespace Member

/-- The participant has set out on its last arrival. -/
def leaves (m : Member) : Bool :=
  match m.standing with
  | .free => false
  | .dropping => true
  | .arriving leaves | .arrived leaves => leaves

/-- The arrival has been counted. -/
def count (m : Member) : Member := ⟨m.rounds + 1, .arrived m.leaves⟩

/-- The participant moves, with no arrival counted. -/
def move (m : Member) (standing : Standing) : Member := { m with standing := standing }

/-- The phase that is now `k` has counted an arrival of the participant. -/
def counted (k : ℕ) (m : Member) : ℕ :=
  match m.standing with
  | .arrived _ => if m.rounds = k + 1 then 1 else 0
  | _ => 0

def issued (k : ℕ) (m : Member) : ℕ :=
  match m.standing with
  | .free => 0
  | .dropping | .arriving _ => 1
  | .arrived _ => m.counted k

def expected (k : ℕ) (m : Member) : ℕ :=
  match m.standing with
  | .arrived true => m.counted k
  | _ => 1

/-- The participant has announced that it leaves. -/
def leaving (k : ℕ) (m : Member) : ℕ :=
  match m.standing with
  | .arriving true => 1
  | .arrived true => m.counted k
  | _ => 0

/-- A participant has arrived in each phase before this one, and one that stays
in no other but this. -/
def InStep (k : ℕ) (m : Member) : Prop :=
  match m.standing with
  | .free | .dropping | .arriving _ => m.rounds = k
  | .arrived false => m.rounds = k ∨ m.rounds = k + 1
  | .arrived true => m.rounds ≤ k + 1

variable {k : ℕ} {m : Member}

theorem counted_le_expected (k : ℕ) (m : Member) : m.counted k ≤ m.expected k := by
  rcases m with ⟨rounds, _ | _ | leaves | (_ | _)⟩
  · exact Nat.zero_le _
  · exact Nat.zero_le _
  · exact Nat.zero_le _
  · simp only [counted, expected]
    split_ifs <;> decide
  · exact le_rfl

theorem issued_le_expected (k : ℕ) (m : Member) : m.issued k ≤ m.expected k := by
  rcases m with ⟨rounds, _ | _ | leaves | leaves⟩
  · exact Nat.zero_le _
  · exact le_rfl
  · exact le_rfl
  · exact counted_le_expected k ⟨rounds, .arrived leaves⟩

theorem leaving_le_expected (k : ℕ) (m : Member) : m.leaving k ≤ m.expected k := by
  rcases m with ⟨rounds, _ | _ | (_ | _) | (_ | _)⟩
  all_goals
    first
    | exact Nat.zero_le _
    | exact le_rfl

/-- A participant that stays is expected and does not leave. -/
theorem leaving_lt_expected (h : m.leaves = false) : m.leaving k < m.expected k := by
  rcases m with ⟨rounds, _ | _ | (_ | _) | (_ | _)⟩
  all_goals
    first
    | exact Nat.zero_lt_one
    | cases h

/-- A participant that stays has arrived in each phase before this one. -/
theorem InStep.bounds (h : m.InStep k) (hstays : m.leaves = false) :
    k ≤ m.rounds ∧ m.rounds ≤ k + 1 := by
  rcases m with ⟨rounds, _ | _ | (_ | _) | (_ | _)⟩
  · obtain rfl : rounds = k := h
    exact ⟨le_rfl, Nat.le_succ _⟩
  · cases hstays
  · obtain rfl : rounds = k := h
    exact ⟨le_rfl, Nat.le_succ _⟩
  · cases hstays
  · rcases h with rfl | rfl
    · exact ⟨le_rfl, Nat.le_succ _⟩
    · exact ⟨Nat.le_succ _, le_rfl⟩
  · cases hstays

/-- In a phase that has counted all it expects, each participant that is
expected has been counted. -/
theorem rounds_of_full (hfull : m.counted k = m.expected k) (hexpected : m.expected k = 1) :
    m.rounds = k + 1 := by
  rw [hexpected] at hfull
  rcases m with ⟨rounds, _ | _ | leaves | leaves⟩
  · cases hfull
  · cases hfull
  · cases hfull
  · simp only [counted] at hfull
    by_contra hne
    rw [if_neg hne] at hfull
    cases hfull

/-- The next phase has counted nobody, and expects those who do not leave. -/
theorem next_of_full (h : m.InStep k) (hfull : m.counted k = m.expected k) :
    m.InStep (k + 1) ∧ m.counted (k + 1) = 0 ∧ m.issued (k + 1) = 0 ∧ m.leaving (k + 1) = 0 ∧
      m.expected k = m.expected (k + 1) + m.leaving k := by
  rcases m with ⟨rounds, _ | _ | leaves | (_ | _)⟩
  · cases hfull
  · cases hfull
  · cases hfull
  · obtain rfl : rounds = k + 1 := rounds_of_full hfull rfl
    have hnext : k + 1 ≠ k + 1 + 1 := Nat.ne_of_lt (Nat.lt_succ_self _)
    simp only [InStep, counted, issued, leaving, expected, if_neg hnext, true_or, and_self]
  · have hnext : rounds ≠ k + 1 + 1 := Nat.ne_of_lt (Nat.lt_succ_of_le h)
    have hle : rounds ≤ k + 1 + 1 := Nat.le_succ_of_le h
    simp only [InStep, counted, issued, leaving, expected, if_neg hnext, hle, true_and,
      Nat.zero_add]

end Member

open Member

/-- The ledger of a barrier that a team uses. -/
structure Team {ι : Type*} [Fintype ι] (g : Ledger) (team : ι → Member) : Prop where
  quota_eq : g.quota = total (expected g.phaseNo) team
  issued_eq : g.issued = total (issued g.phaseNo) team
  counted_eq : g.counted = total (counted g.phaseNo) team
  drops_eq : g.drops = total (leaving g.phaseNo) team
  inStep : ∀ t, (team t).InStep g.phaseNo

namespace Team

variable {ι : Type*} [Fintype ι] {g : Ledger} {team : ι → Member} {t u : ι}

theorem start (ι : Type*) [Fintype ι] : Team (ι := ι) (.start (Fintype.card ι)) fun _ => ⟨0, .free⟩ where
  quota_eq := (Finset.card_eq_sum_ones _).trans rfl
  issued_eq := (total_const_zero _ _ fun _ => rfl).symm
  counted_eq := (total_const_zero _ _ fun _ => rfl).symm
  drops_eq := (total_const_zero _ _ fun _ => rfl).symm
  inStep _ := rfl

/-! ## What the team knows -/

theorem bounds (h : Team g team) (ht : (team t).leaves = false) :
    g.phaseNo ≤ (team t).rounds ∧ (team t).rounds ≤ g.phaseNo + 1 :=
  (h.inStep t).bounds ht

theorem rounds_of_free (h : Team g team) (ht : (team t).standing = .free) :
    (team t).rounds = g.phaseNo := by
  have hinStep := h.inStep t
  rwa [InStep, ht] at hinStep

/-- There is room for the arrival of a free participant. -/
theorem issued_lt (h : Team g team) (ht : (team t).standing = .free) : g.issued + 1 ≤ g.quota := by
  rw [h.issued_eq, h.quota_eq]
  refine Nat.succ_le_of_lt (Finset.sum_lt_sum (fun u _ => issued_le_expected _ _)
    ⟨t, Finset.mem_univ t, ?_⟩)
  rw [Member.issued, Member.expected, ht]
  exact Nat.zero_lt_one

/-- Where someone stays, a phase does not lose all it expects. -/
theorem drops_lt (h : Team g team) (ht : (team t).leaves = false) : g.drops < g.quota := by
  rw [h.drops_eq, h.quota_eq]
  exact Finset.sum_lt_sum (fun u _ => leaving_le_expected _ _)
    ⟨t, Finset.mem_univ t, leaving_lt_expected ht⟩

/-- A full phase has counted each participant that it expects. -/
theorem counted_of_full (h : Team g team) (hfull : g.counted = g.quota) (t : ι) :
    (team t).counted g.phaseNo = (team t).expected g.phaseNo := by
  rw [h.counted_eq, h.quota_eq] at hfull
  exact (Finset.sum_eq_sum_iff_of_le fun u _ => counted_le_expected _ _).mp hfull t
    (Finset.mem_univ t)

/-! ## What the team does -/

section Steps

variable [DecidableEq ι] {m : Member}

/-- A participant moves, and the phase does not. -/
theorem update {g' : Ledger} (h : Team g team) (hphase : g'.phaseNo = g.phaseNo)
    (hquota : g'.quota + (team t).expected g.phaseNo = g.quota + m.expected g.phaseNo)
    (hissued : g'.issued + (team t).issued g.phaseNo = g.issued + m.issued g.phaseNo)
    (hcounted : g'.counted + (team t).counted g.phaseNo = g.counted + m.counted g.phaseNo)
    (hdrops : g'.drops + (team t).leaving g.phaseNo = g.drops + m.leaving g.phaseNo)
    (hinStep : m.InStep g.phaseNo) : Team g' (Function.update team t m) := by
  have hmove (f : Member → ℕ) {a b : ℕ} (hb : b = total f team) (ha : a + f (team t) = b + f m) :
      a = total f (Function.update team t m) := by
    have htotal := total_update f team t m
    omega
  refine ⟨?_, ?_, ?_, ?_, fun u => ?_⟩
  · rw [hphase]
    exact hmove _ h.quota_eq hquota
  · rw [hphase]
    exact hmove _ h.issued_eq hissued
  · rw [hphase]
    exact hmove _ h.counted_eq hcounted
  · rw [hphase]
    exact hmove _ h.drops_eq hdrops
  · rw [hphase]
    revert u
    rw [Function.forall_update_iff team (p := fun _ m => m.InStep g.phaseNo)]
    exact ⟨hinStep, fun u _ => h.inStep u⟩

/-- A participant sets out on an arrival. -/
theorem issue (h : Team g team) (ht : (team t).standing = .free) {standing : Standing}
    (hstanding : standing = .dropping ∨ standing = .arriving false) :
    Team (g.issue 1) (Function.update team t ((team t).move standing)) := by
  have hrounds := h.rounds_of_free ht
  rcases hstanding with rfl | rfl
  all_goals
    apply h.update (t := t)
    · rfl
    · rw [Member.expected, Member.expected, ht]
      rfl
    · rw [Member.issued, Member.issued, ht]
      rfl
    · rw [Member.counted, Member.counted, ht]
      rfl
    · rw [Member.leaving, Member.leaving, ht]
      rfl
    · exact hrounds

/-- A participant announces that it leaves. -/
theorem drop (h : Team g team) (ht : (team t).standing = .dropping) :
    Team g.drop (Function.update team t ((team t).move (.arriving true))) := by
  have hinStep := h.inStep t
  rw [InStep, ht] at hinStep
  apply h.update (t := t)
  · rfl
  · rw [Member.expected, Member.expected, ht]
    rfl
  · rw [Member.issued, Member.issued, ht]
    rfl
  · rw [Member.counted, Member.counted, ht]
    rfl
  · rw [Member.leaving, Member.leaving, ht]
    rfl
  · exact hinStep

/-- An arrival is counted. -/
theorem count (h : Team g team) (ht : (team t).standing = .arriving (team t).leaves) :
    Team (g.count 1) (Function.update team t (team t).count) := by
  generalize hleaves : (team t).leaves = leaves at ht
  have hinStep := h.inStep t
  rw [InStep, ht] at hinStep
  have hcount : (team t).count = ⟨(team t).rounds + 1, .arrived leaves⟩ := by
    rw [Member.count, hleaves]
  have hnew : (team t).count.counted g.phaseNo = 1 := by
    rw [Member.counted, hcount, hinStep]
    exact if_pos rfl
  have hlast : (team t).rounds + 1 = g.phaseNo + 1 := congrArg (· + 1) hinStep
  rw [hcount] at hnew ⊢
  apply h.update (t := t)
  · rfl
  · rw [Member.expected, Member.expected, ht]
    cases leaves with
    | false => rfl
    | true => exact congrArg _ hnew.symm
  · rw [Member.issued, Member.issued, ht]
    exact congrArg _ hnew.symm
  · rw [hnew, Member.counted, ht]
    rfl
  · rw [Member.leaving, Member.leaving, ht]
    cases leaves with
    | false => rfl
    | true => exact congrArg _ hnew.symm
  · cases leaves with
    | false => exact Or.inr hlast
    | true => exact hlast.le

/-- A participant has seen the end of the phase it arrived in. -/
theorem pass (h : Team g team) (ht : (team t).standing = .arrived false)
    (hover : (team t).rounds ≤ g.phaseNo) :
    Team g (Function.update team t ((team t).move .free)) := by
  have hinStep := h.inStep t
  rw [InStep, ht] at hinStep
  have hrounds : (team t).rounds = g.phaseNo := by omega
  have hnone : (team t).counted g.phaseNo = 0 := by
    rw [Member.counted, ht, hrounds]
    exact if_neg (Nat.ne_of_lt (Nat.lt_succ_self _))
  apply h.update (t := t)
  · rfl
  · rw [Member.expected, Member.expected, ht]
    rfl
  · rw [Member.issued, Member.issued, ht]
    exact congrArg _ hnone
  · rw [hnone]
    rfl
  · rw [Member.leaving, Member.leaving, ht]
    rfl
  · exact hrounds

end Steps

/-- A full phase is closed. -/
theorem close (h : Team g team) (hfull : g.counted = g.quota) : Team g.close team := by
  have hnext (t : ι) := next_of_full (h.inStep t) (h.counted_of_full hfull t)
  have hsplit : total (expected g.phaseNo) team =
      total (expected (g.phaseNo + 1)) team + total (leaving g.phaseNo) team := by
    rw [total, total, total, ← Finset.sum_add_distrib]
    exact Finset.sum_congr rfl fun t _ => (hnext t).2.2.2.2
  refine ⟨?_, ?_, ?_, ?_, fun t => (hnext t).1⟩
  · change g.quota - g.drops = total (expected (g.phaseNo + 1)) team
    rw [h.quota_eq, h.drops_eq, hsplit, Nat.add_sub_cancel]
  · exact (total_const_zero _ _ fun t => (hnext t).2.2.1).symm
  · exact (total_const_zero _ _ fun t => (hnext t).2.1).symm
  · exact (total_const_zero _ _ fun t => (hnext t).2.2.2.1).symm

/-- An arrival is counted, and may be the last one of the phase. -/
theorem countAndClose [DecidableEq ι] (h : Team g team)
    (ht : (team t).standing = .arriving (team t).leaves) :
    Team (g.countAndClose 1) (Function.update team t (team t).count) := by
  rw [Ledger.countAndClose]
  split_ifs with hlast
  · exact (h.count ht).close hlast.2
  · exact h.count ht

end Team

end Libhipcxx.Barrier
