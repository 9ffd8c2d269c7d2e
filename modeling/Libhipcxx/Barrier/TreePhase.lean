import Libhipcxx.Barrier.TreeClimb
import Libhipcxx.Support.LinearSearch

/-!
# Phases of the tree barrier

The tickets of a phase count the places taken in the slots of a tournament, and
the first round is a linear search for a place.  The two accounts together say
where each arrival of the phase is, whatever the order of the compare-exchanges.
-/

namespace Libhipcxx.Barrier.Tree

open Transition Threads Tournament

/-! ## Where the arrivals are -/

/-- The climb of an arrival that is at a ticket. -/
def Pc.climb : Pc → Option Climb
  | .attempt _ c => some c
  | .second _ c => some c
  | _ => none

/-- The arrivals of a call that are still to begin. -/
def unbegun : Pc → ℕ
  | .idle => 0
  | .ready update _ => update
  | .attempt update _ => update
  | .second update _ => update
  | .completion update _ => update

def climbing (pc : Pc) : ℕ := if pc.climb = none then 0 else 1

def winning : Pc → ℕ
  | .completion _ _ => 1
  | _ => 0

/-- Whether an arrival is at slot `k` of round `r`. -/
def atSlot (r k : ℕ) (pc : Pc) : ℕ :=
  match pc.climb with
  | some c => if c.round = r ∧ c.current = k * 2 ^ r then 1 else 0
  | none => 0

/-- Whether an arrival searches the first round from node `j` on. -/
def searchingFrom (j : ℕ) (pc : Pc) : ℕ :=
  match pc.climb with
  | some c => if c.round = 0 ∧ j ≤ c.current then 1 else 0
  | none => 0

variable {n r k : ℕ} {phase : Phase} {pc : Pc}

theorem climbing_of_none (h : pc.climb = none) : climbing pc = 0 := if_pos h

theorem climbing_of_some {c : Climb} (h : pc.climb = some c) : climbing pc = 1 := by
  rw [climbing, h, if_neg (Option.some_ne_none c)]

theorem atSlot_of_none (h : pc.climb = none) (r k : ℕ) : atSlot r k pc = 0 := by
  rw [atSlot, h]

theorem atSlot_of_standing (h : pc.climb = some (standing n phase r k)) (r' k' : ℕ) :
    atSlot r' k' pc = if r' = r ∧ k' = k then 1 else 0 := by
  rw [atSlot, h]
  apply if_congr _ rfl rfl
  constructor
  · rintro ⟨rfl, hcurrent⟩
    exact ⟨rfl, (Nat.eq_of_mul_eq_mul_right (Nat.two_pow_pos _) hcurrent).symm⟩
  · rintro ⟨rfl, rfl⟩
    exact ⟨rfl, rfl⟩

theorem searchingFrom_of_none (h : pc.climb = none) (j : ℕ) : searchingFrom j pc = 0 := by
  rw [searchingFrom, h]

theorem searchingFrom_of_standing (h : pc.climb = some (standing n phase r k)) (j : ℕ) :
    searchingFrom j pc = if r = 0 ∧ j ≤ k then 1 else 0 := by
  rw [searchingFrom, h]
  apply if_congr _ rfl rfl
  apply and_congr_right
  rintro rfl
  rw [standing, pow_zero, Nat.mul_one]

theorem searchingFrom_succ_le (j : ℕ) (pc : Pc) : searchingFrom (j + 1) pc ≤ searchingFrom j pc := by
  rw [searchingFrom, searchingFrom]
  cases pc.climb with
  | none => exact le_rfl
  | some c =>
    show ite _ _ _ ≤ ite _ _ _
    split_ifs <;> omega

@[simp] theorem climb_resume (update : ℕ) (oldPhase : Phase) :
    (resume update oldPhase).climb = none := by
  rw [resume]
  split_ifs <;> rfl

@[simp] theorem unbegun_resume (update : ℕ) (oldPhase : Phase) :
    unbegun (resume update oldPhase) = update := by
  rw [resume]
  split_ifs with hnone
  · exact hnone.symm
  · rfl

@[simp] theorem winning_resume (update : ℕ) (oldPhase : Phase) :
    winning (resume update oldPhase) = 0 := by
  rw [resume]
  split_ifs <;> rfl

theorem winning_of_climb {c : Climb} (h : pc.climb = some c) : winning pc = 0 := by
  cases pc with
  | completion => cases h
  | _ => rfl

/-! ## The invariant -/

/-- What a thread's point says of the phase and of its slot. -/
def Local (n : ℕ) (phase : Phase) (taken : ℕ → ℕ → ℕ) : Pc → Prop
  | .idle => True
  | .ready update oldPhase => 0 < update ∧ oldPhase = phase
  | .attempt _ c => ∃ r k, Slot n r k ∧ c = standing n phase r k
  | .second _ c => ∃ r k, Slot n r k ∧ c = standing n phase r k ∧ 0 < taken r k
  | .completion _ oldPhase => oldPhase = phase

variable {taken taken' : ℕ → ℕ → ℕ}

theorem Local.mono (h : Local n phase taken pc) (hle : ∀ r k, taken r k ≤ taken' r k) :
    Local n phase taken' pc := by
  cases pc with
  | second update c =>
    obtain ⟨r, k, hslot, hc, hpos⟩ := h
    exact ⟨r, k, hslot, hc, hpos.trans_le (hle r k)⟩
  | _ => exact h

/-- A climb is at a slot. -/
theorem Local.climb {c : Climb} (h : Local n phase taken pc) (hclimb : pc.climb = some c) :
    ∃ r k, Slot n r k ∧ c = standing n phase r k := by
  cases pc with
  | attempt update c' =>
    cases hclimb
    exact h
  | second update c' =>
    cases hclimb
    obtain ⟨r, k, hslot, hc, -⟩ := h
    exact ⟨r, k, hslot, hc⟩
  | _ => cases hclimb

theorem local_resume (update : ℕ) : Local n phase taken (resume update phase) := by
  rw [resume]
  split_ifs with hnone
  · exact True.intro
  · exact ⟨Nat.pos_of_ne_zero hnone, rfl⟩

variable {ι : Type} [Fintype ι]

/-- The account of the phase counts the arrivals. -/
structure Counted (n : ℕ) (a : Account) (pc : ι → Pc) : Prop where
  called_eq : a.called = a.starts.length + total unbegun pc
  called_le : a.called ≤ n
  returned_eq : a.starts.length = a.returned + total climbing pc
  trues_eq : a.trues = total winning pc

/-- The account of a phase that has ended. -/
def Closed (n : ℕ) (a : Account) : Prop :=
  a.trues = 1 ∧ a.returned = n ∧ a.starts.length = n

/-- The invariant, with the places taken in each slot. -/
structure Inv (n : ℕ) (taken : ℕ → ℕ → ℕ) (s : State ι) : Prop where
  unfailed : s.failed = false
  threads : ∀ t, Local n s.phase taken (s.pc t)
  tickets : ∀ r k, Slot n r k →
    s.tickets (k * 2 ^ r) r = s.phase + mark (capacity n r k) (taken r k)
  climbs : Tournament.Account n taken fun r k => total (atSlot r k) s.pc
  searches : 1 < n → LinearSearch.Account (width n 1) (capacity n 0) (taken 0)
    (fun j => total (searchingFrom j) s.pc) fun j => s.account.starts.countP (j ≤ ·)
  hints : ∀ j < n, 0 < j → s.account.starts.countP (j ≤ ·) ≤ n - 2 * j
  counted : Counted n s.account s.pc
  single : n = 1 → s.account.trues = s.account.starts.length
  root : ∀ r, 1 < width n r → width n (r + 1) = 1 → s.account.trues = won n taken r 0
  finished : ∀ a ∈ s.finished, Closed n a

/-- A phase in which nothing has happened. -/
theorem inv_fresh {s : State ι} (hunfailed : s.failed = false) (hidle : ∀ t, s.pc t = .idle)
    (haccount : s.account = .fresh)
    (htickets : ∀ r k, Slot n r k → s.tickets (k * 2 ^ r) r = s.phase)
    (hfinished : ∀ a ∈ s.finished, Closed n a) : Inv n (fun _ _ => 0) s := by
  have hnone (f : Pc → ℕ) (hf : f .idle = 0) : total f s.pc = 0 :=
    total_const_zero _ _ fun t => by rw [hidle t, hf]
  have hzero : (fun j => total (searchingFrom j) s.pc) = fun _ => 0 :=
    funext fun j => hnone _ (searchingFrom_of_none rfl j)
  refine ⟨hunfailed, fun t => ?_, fun r k hslot => ?_, ?_, fun _ => ?_, fun j _ _ => ?_, ?_,
    fun _ => ?_, fun r _ _ => ?_, hfinished⟩
  · rw [hidle t]
    exact True.intro
  · rw [htickets r k hslot, add_mark_zero]
  · apply (account_start n).congr_waiting
    exact fun r k => hnone _ (atSlot_of_none rfl (r + 1) k)
  · rw [haccount, hzero]
    exact LinearSearch.Account.start _
  · rw [haccount]
    exact Nat.zero_le _
  · rw [haccount]
    constructor
    · rw [hnone unbegun rfl]
      rfl
    · exact Nat.zero_le n
    · rw [hnone climbing rfl]
      rfl
    · rw [hnone winning rfl]
      rfl
  · rw [haccount]
    rfl
  · rw [haccount]
    exact (if_neg fun h => h.1.ne h.2).symm

theorem inv_start (favorite : ι → ℕ) : Inv n (fun _ _ => 0) (start favorite) := by
  apply inv_fresh rfl (fun _ => rfl) rfl (fun _ _ _ => rfl)
  intro a ha
  cases ha

/-! ## One step -/

variable [DecidableEq ι] {s : State ι} {t : ι} {update : ℕ} {pc' : Pc}

theorem Counted.move {a a' : Account} {pcs : ι → Pc} (h : Counted n a pcs)
    (hcalled : a'.called + a.starts.length + unbegun (pcs t) =
      a.called + a'.starts.length + unbegun pc')
    (hle : a'.called ≤ n)
    (hreturned : a'.starts.length + a.returned + climbing (pcs t) =
      a.starts.length + a'.returned + climbing pc')
    (htrues : a'.trues + winning (pcs t) = a.trues + winning pc') :
    Counted n a' (Function.update pcs t pc') := by
  have hunbegun := total_update unbegun pcs t pc'
  have hclimbing := total_update climbing pcs t pc'
  have hwinning := total_update winning pcs t pc'
  obtain ⟨hcalled', -, hreturned', htrues'⟩ := h
  exact ⟨by omega, hle, by omega, by omega⟩

omit [Fintype ι] in
theorem threads_update (h : ∀ u, Local n phase taken (s.pc u))
    (hle : ∀ r k, taken r k ≤ taken' r k) (hpc : Local n phase taken' pc') (u : ι) :
    Local n phase taken' (Function.update s.pc t pc' u) := by
  by_cases hu : u = t
  · rw [hu, Function.update_self]
    exact hpc
  · rw [Function.update_of_ne hu]
    exact (h u).mono hle

theorem climbs_congr (h : Tournament.Account n taken fun r k => total (atSlot r k) s.pc)
    (hsame : ∀ r k, atSlot (r + 1) k pc' = atSlot (r + 1) k (s.pc t)) :
    Tournament.Account n taken fun r k => total (atSlot r k) (Function.update s.pc t pc') :=
  h.congr_waiting fun r k => total_update_of_eq (hsame r k)

theorem searches_congr {starts : ℕ → ℕ}
    (h : LinearSearch.Account (width n 1) (capacity n 0) (taken 0)
      (fun j => total (searchingFrom j) s.pc) starts)
    (hsame : ∀ j, searchingFrom j pc' = searchingFrom j (s.pc t)) :
    LinearSearch.Account (width n 1) (capacity n 0) (taken 0)
      (fun j => total (searchingFrom j) (Function.update s.pc t pc')) starts := by
  have hsearching : (fun j => total (searchingFrom j) (Function.update s.pc t pc')) =
      fun j => total (searchingFrom j) s.pc := funext fun j => total_update_of_eq (hsame j)
  rwa [hsearching]

theorem inv_call (h : Inv n taken s) (hidle : s.pc t = .idle) (hpos : 0 < update)
    (hquota : s.account.called + update ≤ n) : Inv n taken (s.call t update) := by
  have hnone : (s.pc t).climb = none := by
    rw [hidle]
    rfl
  have hnone' : (Pc.ready update s.phase).climb = none := rfl
  have hcounted : Counted n (s.account.call update)
      (Function.update s.pc t (.ready update s.phase)) := by
    apply h.counted.move
    · rw [hidle]
      simp only [Account.call_called, Account.call_starts, unbegun]
      omega
    · exact hquota
    · rw [hidle]
      rfl
    · rw [hidle]
      rfl
  rw [State.call, if_pos hpos]
  refine ⟨h.unfailed, threads_update h.threads (fun _ _ => le_rfl) ⟨hpos, rfl⟩, h.tickets,
    climbs_congr h.climbs fun r k => ?_, fun hn => searches_congr (h.searches hn) fun j => ?_,
    h.hints, hcounted, h.single, h.root, h.finished⟩
  · rw [atSlot_of_none hnone, atSlot_of_none hnone']
  · rw [searchingFrom_of_none hnone, searchingFrom_of_none hnone']

/-- An arrival looks again at a ticket of which one place is taken. -/
theorem inv_look (h : Inv n taken s)
    (hpc : s.pc t = .attempt update (standing n s.phase r k)) (hslot : Slot n r k)
    (hpos : 0 < taken r k) :
    Inv n taken (s.setPc t (.second update (standing n s.phase r k))) := by
  have hclimb : (s.pc t).climb = (Pc.second update (standing n s.phase r k)).climb := by
    rw [hpc]
    rfl
  have hcounted : Counted n s.account
      (Function.update s.pc t (.second update (standing n s.phase r k))) := by
    apply h.counted.move
    · rw [hpc]
      rfl
    · exact h.counted.called_le
    · rw [hpc]
      rfl
    · rw [hpc]
      rfl
  refine ⟨h.unfailed, threads_update h.threads (fun _ _ => le_rfl) ⟨r, k, hslot, rfl, hpos⟩,
    h.tickets, climbs_congr h.climbs fun r k => ?_,
    fun hn => searches_congr (h.searches hn) fun j => ?_,
    h.hints, hcounted, h.single, h.root, h.finished⟩
  · rw [atSlot, atSlot, hclimb]
  · rw [searchingFrom, searchingFrom, hclimb]

/-! ### The first node of an arrival -/

theorem startIndex_lt (hn : 0 < n) (favorite : ℕ) : startIndex n favorite < n := by
  rw [startIndex]
  split_ifs with hbeyond
  · exact hn
  · exact not_le.mp hbeyond

/-- A start that the hints leave room for is at a slot. -/
theorem slot_of_hints (hn : 1 < n) {first : ℕ} (hfirst : first < n) {starts : List ℕ}
    (hhints : ∀ j < n, 0 < j → (first :: starts).countP (j ≤ ·) ≤ n - 2 * j) :
    Slot n 0 first := by
  refine ⟨hn, ?_⟩
  rcases Nat.eq_zero_or_pos first with hzero | hpos
  · rw [hzero]
    exact width_pos (Nat.zero_lt_of_lt hn) 1
  · have hone : 0 < (first :: starts).countP (first ≤ ·) :=
      List.countP_pos_iff.mpr ⟨first, List.mem_cons_self, decide_eq_true le_rfl⟩
    have hroom := hone.trans_le (hhints first hfirst hpos)
    rw [width_one]
    omega

theorem countP_begin (first : ℕ) (starts : List ℕ) (j : ℕ) :
    (first :: starts).countP (j ≤ ·) =
      starts.countP (j ≤ ·) + if j ≤ first then 1 else 0 := by
  rw [List.countP_cons]
  simp only [decide_eq_true_eq]

/-- The arrival of a barrier that expects one returns at once. -/
theorem inv_begin_single (h : Inv 1 taken s)
    (hpc : s.pc t = .ready (update + 1) s.phase) (hhints : HintsFit 1 s (.begin t)) :
    Inv 1 taken (s.begin 1 t update s.phase) := by
  have hnone : (s.pc t).climb = none := by
    rw [hpc]
    rfl
  have hnone' : (Pc.completion update s.phase).climb = none := rfl
  have henter : Climb.enter ⟨s.phase, 0, s.favorite t, 1, 1 / 2⟩ = .returns true := by
    rw [enter_eq (Nat.zero_le 63), if_pos rfl]
  have hcounted : Counted 1 ((s.account.begin (startIndex 1 (s.favorite t))).ret true)
      (Function.update s.pc t (.completion update s.phase)) := by
    apply h.counted.move
    · simp only [hpc, Account.ret_called, Account.ret_starts, Account.begin_called,
        Account.begin_starts, List.length_cons, unbegun]
      omega
    · exact h.counted.called_le
    · simp only [Account.ret_starts, Account.ret_returned, Account.begin_starts,
        Account.begin_returned, List.length_cons, climbing_of_none hnone, climbing_of_none hnone']
      omega
    · rw [hpc]
      rfl
  rw [State.begin, henter]
  refine ⟨h.unfailed, threads_update h.threads (fun _ _ => le_rfl) rfl, h.tickets,
    climbs_congr h.climbs fun r k => ?_, fun hn => absurd hn (lt_irrefl 1), hhints, hcounted,
    fun hn => ?_, fun r hwidth _ => ?_, h.finished⟩
  · rw [atSlot_of_none hnone, atSlot_of_none hnone']
  · exact congrArg (· + 1) (h.single hn)
  · have hle : width 1 r ≤ 1 := width_le (Nat.le_mul_of_pos_right 1 (Nat.two_pow_pos r))
    exact absurd hwidth (not_lt.mpr hle)

/-- Any other arrival goes to its first node. -/
theorem inv_begin_several (hn : 1 < n) (h : Inv n taken s)
    (hpc : s.pc t = .ready (update + 1) s.phase) (hhints : HintsFit n s (.begin t)) :
    Inv n taken (s.begin n t update s.phase) := by
  have hslot := slot_of_hints hn (startIndex_lt (Nat.zero_lt_of_lt hn) (s.favorite t)) hhints
  have hnone : (s.pc t).climb = none := by
    rw [hpc]
    rfl
  have hsome : (Pc.attempt update (standing n s.phase 0 (startIndex n (s.favorite t)))).climb =
      some (standing n s.phase 0 (startIndex n (s.favorite t))) := rfl
  rw [State.begin, enter_first hslot]
  rw [HintsFit] at hhints
  generalize startIndex n (s.favorite t) = first at hhints hslot hsome
  have hcounted : Counted n (s.account.begin first)
      (Function.update s.pc t (.attempt update (standing n s.phase 0 first))) := by
    apply h.counted.move
    · simp only [hpc, Account.begin_called, Account.begin_starts, List.length_cons, unbegun]
      omega
    · exact h.counted.called_le
    · simp only [Account.begin_starts, Account.begin_returned, List.length_cons,
        climbing_of_none hnone, climbing_of_some hsome]
      omega
    · rw [hpc]
      rfl
  have hsearches : LinearSearch.Account (width n 1) (capacity n 0) (taken 0)
      (fun j => total (searchingFrom j)
        (Function.update s.pc t (.attempt update (standing n s.phase 0 first))))
      fun j => (first :: s.account.starts).countP (j ≤ ·) := by
    refine (h.searches hn).begin (fun j => ?_) (countP_begin first s.account.starts)
    have htotal := total_update (searchingFrom j) s.pc t
      (.attempt update (standing n s.phase 0 first))
    rw [searchingFrom_of_none hnone, searchingFrom_of_standing hsome] at htotal
    simpa only [true_and, Nat.add_zero] using htotal
  refine ⟨h.unfailed, threads_update h.threads (fun _ _ => le_rfl) ⟨0, first, hslot, rfl⟩,
    h.tickets, climbs_congr h.climbs fun r k => ?_, fun _ => hsearches, hhints, hcounted,
    fun hone => absurd hone hn.ne', h.root, h.finished⟩
  rw [atSlot_of_none hnone, atSlot_of_standing hsome, if_neg fun heq => Nat.succ_ne_zero r heq.1]

theorem inv_begin (hn : 0 < n) (h : Inv n taken s) {oldPhase : Phase}
    (hpc : s.pc t = .ready (update + 1) oldPhase) (hhints : HintsFit n s (.begin t)) :
    Inv n taken (s.begin n t update oldPhase) := by
  have hlocal := h.threads t
  rw [hpc] at hlocal
  obtain ⟨-, rfl⟩ := hlocal
  rcases Nat.eq_or_lt_of_le (Nat.succ_le_of_lt hn) with rfl | hseveral
  · exact inv_begin_single h hpc hhints
  · exact inv_begin_several hseveral h hpc hhints

/-! ### A slot without room -/

theorem Slot.one_lt (hslot : Slot n r k) : 1 < n := by
  have hle : width n r ≤ n := width_le (Nat.le_mul_of_pos_right n (Nat.two_pow_pos r))
  exact hslot.contested.trans_le hle

/-- The places from a node on. -/
theorem placed_capacity (n : ℕ) {j : ℕ} (hj : j ≤ width n 1) :
    LinearSearch.placed (width n 1) (capacity n 0) j = n - 2 * j := by
  induction hj using Nat.decreasingInduction with
  | self =>
    rw [LinearSearch.placed, Finset.Ico_self, Finset.sum_empty, width_one]
    omega
  | of_succ j hlt ih =>
    rw [LinearSearch.placed_of_lt hlt, ih, capacity, width_zero]
    omega

omit [DecidableEq ι] in
/-- A later round has room for all who come to it. -/
theorem round_zero_of_full (h : Inv n taken s)
    (hclimb : (s.pc t).climb = some (standing n s.phase r k)) (hslot : Slot n r k)
    (hfull : taken r k = capacity n r k) : r = 0 := by
  cases r with
  | zero => rfl
  | succ r =>
    have hroom := h.climbs.le_room hslot.contested k
    have hwaiting := le_total (atSlot (r + 1) k) s.pc t
    rw [atSlot_of_standing hclimb, if_pos ⟨rfl, rfl⟩] at hwaiting
    omega

omit [DecidableEq ι] in
/-- There is a node after one without room. -/
theorem slot_after_full (h : Inv n taken s)
    (hclimb : (s.pc t).climb = some (standing n s.phase 0 k)) (hslot : Slot n 0 k)
    (hfull : taken 0 k = capacity n 0 k) : Slot n 0 (k + 1) := by
  refine ⟨hslot.contested, ?_⟩
  by_contra hend
  have hlast : k + 1 = width n 1 := le_antisymm hslot.lt_width (not_lt.mp hend)
  have hsearching : 0 < total (searchingFrom k) s.pc := by
    have hle := le_total (searchingFrom k) s.pc t
    rw [searchingFrom_of_standing hclimb, if_pos ⟨rfl, le_rfl⟩] at hle
    exact hle
  have hstarts : ∀ j < width n 1, s.account.starts.countP (j ≤ ·) ≤
      LinearSearch.placed (width n 1) (capacity n 0) j := by
    intro j hj
    rw [placed_capacity n hj.le]
    rcases Nat.eq_zero_or_pos j with rfl | hpos
    · have hlength := List.countP_le_length (p := fun i => decide (0 ≤ i)) (l := s.account.starts)
      have hcalled := h.counted.called_eq
      have hquota := h.counted.called_le
      omega
    · have hj' : j < n := hj.trans_le (width_succ_le n 0)
      exact h.hints j hj' hpos
  have hantitone (j : ℕ) : total (searchingFrom (j + 1)) s.pc ≤ total (searchingFrom j) s.pc :=
    Finset.sum_le_sum fun u _ => searchingFrom_succ_le j (s.pc u)
  have hroom := (h.searches hslot.one_lt).room hantitone hstarts hlast hsearching
  exact hroom.ne hfull

/-- An arrival goes on to the next node. -/
theorem inv_pass (h : Inv n taken s)
    (hclimb : (s.pc t).climb = some (standing n s.phase r k)) (hslot : Slot n r k)
    (hupdate : unbegun (s.pc t) = update) (hfull : taken r k = capacity n r k) :
    Inv n taken (s.pass n t update r k) := by
  obtain rfl := round_zero_of_full h hclimb hslot hfull
  have hslot' := slot_after_full h hclimb hslot hfull
  have hsome : (Pc.attempt update (standing n s.phase 0 (k + 1))).climb =
      some (standing n s.phase 0 (k + 1)) := rfl
  have hcounted : Counted n s.account
      (Function.update s.pc t (.attempt update (standing n s.phase 0 (k + 1)))) := by
    apply h.counted.move
    · rw [hupdate, unbegun]
    · exact h.counted.called_le
    · rw [climbing_of_some hclimb, climbing_of_some hsome]
    · rw [winning_of_climb hclimb, winning_of_climb hsome]
  have hsearches : LinearSearch.Account (width n 1) (capacity n 0) (taken 0)
      (fun j => total (searchingFrom j)
        (Function.update s.pc t (.attempt update (standing n s.phase 0 (k + 1)))))
      fun j => s.account.starts.countP (j ≤ ·) := by
    refine (h.searches hslot.one_lt).advance hfull fun j => ?_
    have htotal := total_update (searchingFrom j) s.pc t
      (.attempt update (standing n s.phase 0 (k + 1)))
    rw [searchingFrom_of_standing hclimb, searchingFrom_of_standing hsome] at htotal
    simp only [true_and] at htotal
    split_ifs at htotal ⊢ <;> omega
  rw [State.pass, advance_first hslot']
  refine ⟨h.unfailed, threads_update h.threads (fun _ _ => le_rfl) ⟨0, k + 1, hslot', rfl⟩,
    h.tickets, climbs_congr h.climbs fun r k => ?_, fun _ => hsearches, h.hints, hcounted,
    h.single, h.root, h.finished⟩
  rw [atSlot_of_standing hclimb, atSlot_of_standing hsome,
    if_neg fun heq => Nat.succ_ne_zero r heq.1, if_neg fun heq => Nat.succ_ne_zero r heq.1]

/-! ### A slot with room -/

/-- One more place is taken in a slot. -/
def placeIn (taken : ℕ → ℕ → ℕ) (r k : ℕ) (r' k' : ℕ) : ℕ :=
  taken r' k' + if r' = r ∧ k' = k then 1 else 0

omit [DecidableEq ι] in
theorem tickets_take (h : Inv n taken s) (r' k' : ℕ) (hslot : Slot n r' k') :
    (s.setTicket (standing n s.phase r k)
      (s.phase + mark (capacity n r k) (taken r k + 1))).tickets (k' * 2 ^ r') r' =
        s.phase + mark (capacity n r' k') (placeIn taken r k r' k') := by
  rw [setTicket_standing, placeIn]
  split_ifs with hsame
  · obtain ⟨rfl, rfl⟩ := hsame
    rfl
  · exact h.tickets r' k' hslot

theorem climbs_take (h : Inv n taken s)
    (hclimb : (s.pc t).climb = some (standing n s.phase r k))
    (hroom : taken r k < capacity n r k)
    (hup : ∀ r' k', 1 < width n (r' + 1) → atSlot (r' + 1) k' pc' =
      if r' = r ∧ k' = k / 2 ∧ taken r k + 1 = capacity n r k then 1 else 0) :
    Tournament.Account n (placeIn taken r k)
      fun r k => total (atSlot r k) (Function.update s.pc t pc') := by
  refine h.climbs.take hroom (fun _ _ => rfl) fun r' k' hwidth => ?_
  have htotal := total_update (atSlot (r' + 1) k') s.pc t pc'
  rwa [atSlot_of_standing hclimb, hup r' k' hwidth] at htotal

theorem searches_take (h : Inv n taken s)
    (hclimb : (s.pc t).climb = some (standing n s.phase r k)) (hslot : Slot n r k)
    (hroom : taken r k < capacity n r k) (hdone : ∀ j, searchingFrom j pc' = 0) :
    LinearSearch.Account (width n 1) (capacity n 0) (placeIn taken r k 0)
      (fun j => total (searchingFrom j) (Function.update s.pc t pc'))
      fun j => s.account.starts.countP (j ≤ ·) := by
  have hsearches := h.searches hslot.one_lt
  cases r with
  | zero =>
    refine hsearches.take hslot.lt_width hroom (fun k' => ?_) fun j => ?_
    · rw [placeIn]
      simp only [true_and]
    · have htotal := total_update (searchingFrom j) s.pc t pc'
      rw [searchingFrom_of_standing hclimb, hdone] at htotal
      simpa only [true_and, Nat.add_zero] using htotal
  | succ r =>
    have hsame : placeIn taken (r + 1) k 0 = taken 0 := by
      funext k'
      rw [placeIn, if_neg fun heq => Nat.succ_ne_zero r heq.1.symm, Nat.add_zero]
    rw [hsame]
    refine searches_congr hsearches fun j => ?_
    rw [hdone, searchingFrom_of_standing hclimb, if_neg fun heq => Nat.succ_ne_zero r heq.1]

omit [Fintype ι] [DecidableEq ι] in
/-- The last round is won when its slot is full. -/
theorem root_take {trues trues' : ℕ}
    (hroot : ∀ r, 1 < width n r → width n (r + 1) = 1 → trues = won n taken r 0)
    (hslot : Slot n r k) (hroom : taken r k < capacity n r k)
    (htrues : trues' = trues +
      if taken r k + 1 = capacity n r k ∧ width n (r + 1) = 1 then 1 else 0)
    (r' : ℕ) (hcontested : 1 < width n r') (hlast : width n (r' + 1) = 1) :
    trues' = won n (placeIn taken r k) r' 0 := by
  have htaken (r' k' : ℕ) : placeIn taken r k r' k' =
      taken r' k' + if r' = r ∧ k' = k then 1 else 0 := rfl
  have hwon := won_take hroom htaken r' 0
  rw [hwon, ← hroot r' hcontested hlast, htrues]
  congr 1
  apply if_congr _ rfl rfl
  constructor
  · rintro ⟨hfull, hlast'⟩
    have hround := le_antisymm (root_unique hcontested hlast') (root_unique hslot.contested hlast)
    have hlt := hslot.lt_width
    rw [hlast', Nat.lt_one_iff] at hlt
    exact ⟨hround, hlt.symm, hfull⟩
  · rintro ⟨rfl, -, hfull⟩
    exact ⟨hfull, hlast⟩

/-- An arrival takes a place and comes to another point. -/
theorem inv_place (h : Inv n taken s)
    (hclimb : (s.pc t).climb = some (standing n s.phase r k)) (hslot : Slot n r k)
    (hroom : taken r k < capacity n r k) {a : Account} {favorite : ι → ℕ}
    (hlocal : Local n s.phase (placeIn taken r k) pc')
    (hup : ∀ r' k', 1 < width n (r' + 1) → atSlot (r' + 1) k' pc' =
      if r' = r ∧ k' = k / 2 ∧ taken r k + 1 = capacity n r k then 1 else 0)
    (hdone : ∀ j, searchingFrom j pc' = 0) (hstarts : a.starts = s.account.starts)
    (hcounted : Counted n a (Function.update s.pc t pc'))
    (htrues : a.trues = s.account.trues +
      if taken r k + 1 = capacity n r k ∧ width n (r + 1) = 1 then 1 else 0) :
    Inv n (placeIn taken r k)
      { (s.setTicket (standing n s.phase r k)
          (s.phase + mark (capacity n r k) (taken r k + 1))).setPc t pc' with
        account := a
        favorite := favorite } := by
  have hclimbs := climbs_take h hclimb hroom hup
  have hsearches := searches_take h hclimb hslot hroom hdone
  have hhints := h.hints
  rw [← hstarts] at hsearches hhints
  exact ⟨h.unfailed, threads_update h.threads (fun _ _ => Nat.le_add_right _ _) hlocal,
    tickets_take h, hclimbs, fun _ => hsearches, hhints, hcounted,
    fun hone => absurd hone hslot.one_lt.ne', root_take h.root hslot hroom htrues, h.finished⟩

end Libhipcxx.Barrier.Tree
