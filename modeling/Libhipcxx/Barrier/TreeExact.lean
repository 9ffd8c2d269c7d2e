import Libhipcxx.Barrier.TreePhase

/-!
# Runs of the tree barrier

In a phase whose hints leave room, every access is inside the vector, and the
last place of the last round is taken after all arrivals have started.
-/

namespace Libhipcxx.Barrier.Tree

open Transition Threads Tournament

variable {n r k : ℕ} {taken : ℕ → ℕ → ℕ} {ι : Type} [Fintype ι] {s : State ι} {t : ι}
  {update : ℕ}

/-! ## The end of a phase -/

theorem starts_le (h : Inv n taken s) : s.account.starts.length ≤ n := by
  have hcalled := h.counted.called_eq
  have hquota := h.counted.called_le
  omega

theorem trues_le_one (h : Inv n taken s) (hn : 0 < n) : s.account.trues ≤ 1 := by
  rcases Nat.eq_or_lt_of_le (Nat.succ_le_of_lt hn) with rfl | hseveral
  · rw [h.single rfl]
    exact starts_le h
  · obtain ⟨r, hcontested, hlast⟩ := exists_root hseveral
    have hwon := won_le n taken r 0
    rw [h.root r hcontested hlast]
    split_ifs at hwon <;> omega

/-- When the last round is won, no place is left. -/
theorem full_of_trues (h : Inv n taken s) (htrues : 0 < s.account.trues) (hslot : Slot n r k) :
    taken r k = capacity n r k := by
  obtain ⟨r', hcontested, hlast⟩ := exists_root hslot.one_lt
  have hwon : won n taken r' 0 = 1 := by
    have hone := trues_le_one h (Nat.zero_lt_of_lt hslot.one_lt)
    rw [← h.root r' hcontested hlast]
    omega
  have hfull := (h.climbs.full_iff_of_root hlast).mpr hwon
  exact h.climbs.full_of_full hcontested (root_unique hslot.contested hlast) hfull k

theorem countP_all (starts : List ℕ) : starts.countP (0 ≤ ·) = starts.length :=
  List.countP_eq_length.mpr fun i _ => decide_eq_true (Nat.zero_le i)

/-- All places of the first round are taken by arrivals that have started. -/
theorem placed_of_trues (h : Inv n taken s) (htrues : 0 < s.account.trues) (hn : 1 < n) :
    n + total (searchingFrom 0) s.pc = s.account.starts.length := by
  have hplaced : LinearSearch.placed (width n 1) (taken 0) 0 = n := by
    have hcapacity := placed_capacity n (Nat.zero_le (width n 1))
    refine Eq.trans ?_ hcapacity
    apply Finset.sum_congr rfl
    intro k hk
    exact full_of_trues h htrues ⟨hn, (Finset.mem_Ico.mp hk).2⟩
  have hall := (h.searches hn).all
  rwa [hplaced, countP_all] at hall

theorem all_started (h : Inv n taken s) (hn : 0 < n) (htrues : 0 < s.account.trues) :
    s.account.starts.length = n := by
  have hle := starts_le h
  rcases Nat.eq_or_lt_of_le (Nat.succ_le_of_lt hn) with rfl | hseveral
  · rw [h.single rfl] at htrues
    omega
  · have hplaced := placed_of_trues h htrues hseveral
    omega

theorem none_climbing (h : Inv n taken s) (htrues : 0 < s.account.trues) (u : ι) :
    (s.pc u).climb = none := by
  by_contra hsome
  obtain ⟨c, hc⟩ := Option.ne_none_iff_exists'.mp hsome
  obtain ⟨r, k, hslot, rfl⟩ := (h.threads u).climb hc
  obtain rfl := round_zero_of_full h hc hslot (full_of_trues h htrues hslot)
  have hplaced := placed_of_trues h htrues hslot.one_lt
  have hle := starts_le h
  have hsearching := le_total (searchingFrom 0) s.pc u
  rw [searchingFrom_of_standing hc, if_pos ⟨rfl, Nat.zero_le k⟩] at hsearching
  omega

theorem closed_of_trues (h : Inv n taken s) (hn : 0 < n) (htrues : 0 < s.account.trues) :
    Closed n s.account := by
  have hstarts := all_started h hn htrues
  have hclimbing : total climbing s.pc = 0 :=
    total_const_zero _ _ fun u => climbing_of_none (none_climbing h htrues u)
  have hreturned := h.counted.returned_eq
  rw [hclimbing, Nat.add_zero] at hreturned
  exact ⟨le_antisymm (trues_le_one h hn) htrues, hreturned.symm.trans hstarts, hstarts⟩

/-- When all arrivals have returned, one of them has returned true. -/
theorem trues_of_returned (h : Inv n taken s) (hn : 0 < n) (hreturned : s.account.returned = n) :
    s.account.trues = 1 := by
  have hle := starts_le h
  have hcount := h.counted.returned_eq
  have hnone (u : ι) : (s.pc u).climb = none := by
    have hone := le_total climbing s.pc u
    by_contra hsome
    rw [climbing, if_neg hsome] at hone
    omega
  have hstarts : s.account.starts.length = n := by omega
  rcases Nat.eq_or_lt_of_le (Nat.succ_le_of_lt hn) with rfl | hseveral
  · rw [h.single rfl, hstarts]
  · have hsearching : total (searchingFrom 0) s.pc = 0 :=
      total_const_zero _ _ fun u => searchingFrom_of_none (hnone u) 0
    have hwaiting (r k : ℕ) : total (atSlot (r + 1) k) s.pc = 0 :=
      total_const_zero _ _ fun u => atSlot_of_none (hnone u) (r + 1) k
    have hall : s.account.starts.countP (0 ≤ ·) =
        LinearSearch.placed (width n 1) (capacity n 0) 0 := by
      rw [countP_all, hstarts, placed_capacity n (Nat.zero_le _)]
      rfl
    have hslots := (h.searches hseveral).full hall hsearching
    have hfirst : Full n taken 0 := by
      intro k
      by_cases hk : k < width n 1
      · exact hslots k hk
      · have hzero := capacity_eq_zero (not_lt.mp hk)
        have hcapacity := h.climbs.le_capacity 0 k
        omega
    obtain ⟨r, hcontested, hlast⟩ := exists_root hseveral
    rw [h.root r hcontested hlast]
    exact (h.climbs.full_iff_of_root hlast).mp
      (h.climbs.full_of_full_zero hwaiting hcontested hfirst)

theorem idle_of_none {phase : Phase} {pc : Pc} (hlocal : Local n phase taken pc)
    (hclimb : pc.climb = none) (hunbegun : unbegun pc = 0) (hwinning : winning pc = 0) :
    pc = .idle := by
  cases pc with
  | idle => rfl
  | ready update oldPhase => exact absurd hunbegun hlocal.1.ne'
  | attempt update c => cases hclimb
  | second update c => cases hclimb
  | completion update oldPhase => cases hwinning

/-- In a phase that nobody has called every thread is idle. -/
theorem idle_of_fresh (h : Inv n taken s) (hfresh : s.account = .fresh) (u : ι) :
    s.pc u = .idle := by
  have hcalled := h.counted.called_eq
  have hreturned := h.counted.returned_eq
  have htrues := h.counted.trues_eq
  rw [hfresh] at hcalled hreturned htrues
  simp only [Account.fresh, List.length_nil, Nat.zero_add] at hcalled hreturned htrues
  have hunbegun := le_total unbegun s.pc u
  have hclimbing := le_total climbing s.pc u
  have hwinning := le_total winning s.pc u
  refine idle_of_none (h.threads u) ?_ (by omega) (by omega)
  by_contra hsome
  rw [climbing, if_neg hsome] at hclimbing
  omega

/-! ## An arrival takes a place -/

variable [DecidableEq ι]

/-- The first of two to come to a slot is done. -/
theorem inv_take_early (h : Inv n taken s)
    (hclimb : (s.pc t).climb = some (standing n s.phase r k)) (hslot : Slot n r k)
    (hupdate : unbegun (s.pc t) = update) (hlt : taken r k + 1 < capacity n r k) :
    Inv n (placeIn taken r k) (s.take n t update r k (taken r k)) := by
  have hnone := climb_resume update s.phase
  have hcounted : Counted n (s.account.ret false)
      (Function.update s.pc t (resume update s.phase)) := by
    apply h.counted.move
    · rw [hupdate, unbegun_resume, Account.ret_called, Account.ret_starts]
    · exact h.counted.called_le
    · rw [climbing_of_some hclimb, climbing_of_none hnone, Account.ret_starts,
        Account.ret_returned]
      omega
    · rw [winning_of_climb hclimb, winning_resume, Account.ret_trues]
      rfl
  rw [State.take, if_neg hlt.ne]
  refine inv_place h hclimb hslot (Nat.lt_of_succ_lt hlt) (local_resume update)
    (fun r' k' _ => ?_) (searchingFrom_of_none hnone) rfl hcounted ?_
  · rw [atSlot_of_none hnone, if_neg fun hall => hlt.ne hall.2.2]
  · rw [if_neg fun hall => hlt.ne hall.1]
    rfl

/-- The last to come to the last slot has won. -/
theorem inv_take_root (hle : n ≤ 2 ^ 32) (h : Inv n taken s)
    (hclimb : (s.pc t).climb = some (standing n s.phase r k)) (hslot : Slot n r k)
    (hupdate : unbegun (s.pc t) = update) (hlast : taken r k + 1 = capacity n r k)
    (hroot : width n (r + 1) = 1) :
    Inv n (placeIn taken r k) (s.take n t update r k (taken r k)) := by
  have hnone : (Pc.completion update s.phase).climb = none := rfl
  have hcounted : Counted n (s.account.ret true)
      (Function.update s.pc t (.completion update s.phase)) := by
    apply h.counted.move
    · rw [hupdate, unbegun, Account.ret_called, Account.ret_starts]
    · exact h.counted.called_le
    · rw [climbing_of_some hclimb, climbing_of_none hnone, Account.ret_starts,
        Account.ret_returned]
      omega
    · rw [winning_of_climb hclimb, winning, Account.ret_trues]
      rfl
  rw [State.take, if_pos hlast, hslot.next hle, if_pos hroot]
  refine inv_place h hclimb hslot (Nat.lt_of_succ_le hlast.le) rfl
    (fun r' k' hwidth => ?_) (searchingFrom_of_none hnone) rfl hcounted ?_
  · have hother : r' ≠ r := by
      rintro rfl
      exact hwidth.ne' hroot
    rw [atSlot_of_none hnone, if_neg fun hall => hother hall.1]
  · rw [if_pos ⟨hlast, hroot⟩]
    rfl

/-- The last to come to any other slot goes to the next round. -/
theorem inv_take_up (hle : n ≤ 2 ^ 32) (h : Inv n taken s)
    (hclimb : (s.pc t).climb = some (standing n s.phase r k)) (hslot : Slot n r k)
    (hupdate : unbegun (s.pc t) = update) (hlast : taken r k + 1 = capacity n r k)
    (hroot : width n (r + 1) ≠ 1) :
    Inv n (placeIn taken r k) (s.take n t update r k (taken r k)) := by
  have hslot' := hslot.up hroot
  have hsome : (Pc.attempt update (standing n s.phase (r + 1) (k / 2))).climb =
      some (standing n s.phase (r + 1) (k / 2)) := rfl
  have hcounted : Counted n s.account
      (Function.update s.pc t (.attempt update (standing n s.phase (r + 1) (k / 2)))) := by
    apply h.counted.move
    · rw [hupdate, unbegun]
    · exact h.counted.called_le
    · rw [climbing_of_some hclimb, climbing_of_some hsome]
    · rw [winning_of_climb hclimb, winning_of_climb hsome]
  rw [State.take, if_pos hlast, hslot.next hle, if_neg hroot]
  refine inv_place h hclimb hslot (Nat.lt_of_succ_le hlast.le) ⟨r + 1, k / 2, hslot', rfl⟩
    (fun r' k' _ => ?_) (fun j => ?_) rfl hcounted ?_
  · rw [atSlot_of_standing hsome]
    apply if_congr _ rfl rfl
    rw [Nat.succ_inj, eq_true hlast, and_true]
  · rw [searchingFrom_of_standing hsome, if_neg fun heq => Nat.succ_ne_zero r heq.1]
  · rw [if_neg fun hall => hroot hall.2]
    rfl

theorem inv_take (hle : n ≤ 2 ^ 32) (h : Inv n taken s)
    (hclimb : (s.pc t).climb = some (standing n s.phase r k)) (hslot : Slot n r k)
    (hupdate : unbegun (s.pc t) = update) (hroom : taken r k < capacity n r k) :
    Inv n (placeIn taken r k) (s.take n t update r k (taken r k)) := by
  rcases Nat.lt_or_eq_of_le (Nat.succ_le_of_lt hroom) with hearly | hlast
  · exact inv_take_early h hclimb hslot hupdate hearly
  · by_cases hroot : width n (r + 1) = 1
    · exact inv_take_root hle h hclimb hslot hupdate hlast hroot
    · exact inv_take_up hle h hclimb hslot hupdate hlast hroot

/-! ## The compare-exchanges -/

theorem inv_attempt (hle : n ≤ 2 ^ 32) (h : Inv n taken s) {c : Climb}
    (hpc : s.pc t = .attempt update c) :
    ∃ taken', Inv n taken' (if c.InRange n then s.attempt t update c else s.fail) := by
  have hlocal := h.threads t
  rw [hpc] at hlocal
  obtain ⟨r, k, hslot, rfl⟩ := hlocal
  have hclimb : (s.pc t).climb = some (standing n s.phase r k) := by
    rw [hpc]
    rfl
  have hupdate : unbegun (s.pc t) = update := by
    rw [hpc]
    rfl
  have hcapacity := h.climbs.le_capacity r k
  rw [if_pos (hslot.inRange hle), attempt_eq hslot hcapacity (h.tickets r k hslot)]
  split_ifs with hfull hnone
  · exact ⟨taken, inv_pass h hclimb hslot hupdate hfull⟩
  · exact ⟨_, inv_take hle h hclimb hslot hupdate (lt_of_le_of_ne hcapacity hfull)⟩
  · exact ⟨taken, inv_look h hpc hslot (Nat.pos_of_ne_zero hnone)⟩

theorem inv_second (hle : n ≤ 2 ^ 32) (h : Inv n taken s) {c : Climb}
    (hpc : s.pc t = .second update c) :
    ∃ taken', Inv n taken' (if c.InRange n then s.second t update c else s.fail) := by
  have hlocal := h.threads t
  rw [hpc] at hlocal
  obtain ⟨r, k, hslot, rfl, hpos⟩ := hlocal
  have hclimb : (s.pc t).climb = some (standing n s.phase r k) := by
    rw [hpc]
    rfl
  have hupdate : unbegun (s.pc t) = update := by
    rw [hpc]
    rfl
  have hcapacity := h.climbs.le_capacity r k
  rw [if_pos (hslot.inRange hle), second_eq hpos hcapacity (h.tickets r k hslot)]
  split_ifs with hfull
  · exact ⟨taken, inv_pass h hclimb hslot hupdate hfull⟩
  · exact ⟨_, inv_take hle h hclimb hslot hupdate (lt_of_le_of_ne hcapacity hfull)⟩

/-- The winner leaves every thread idle, and every ticket at the next phase. -/
theorem inv_complete (hn : 0 < n) (h : Inv n taken s) {oldPhase : Phase}
    (hpc : s.pc t = .completion update oldPhase) :
    Inv n (fun _ _ => 0) (s.complete t update oldPhase) := by
  have hlocal := h.threads t
  rw [hpc] at hlocal
  obtain rfl := hlocal
  have htrues : 0 < s.account.trues := by
    have hle := le_total winning s.pc t
    rw [hpc, ← h.counted.trues_eq] at hle
    exact hle
  have hclosed := closed_of_trues h hn htrues
  have hunbegun : total unbegun s.pc = 0 := by
    have hcalled := h.counted.called_eq
    have hquota := h.counted.called_le
    have hstarts := hclosed.2.2
    omega
  have hlast : update = 0 := by
    have hle := le_total unbegun s.pc t
    rw [hpc, hunbegun] at hle
    exact Nat.le_zero.mp hle
  refine inv_fresh (s := s.complete t update s.phase) h.unfailed ?_ rfl ?_ ?_
  · intro u
    show Function.update s.pc t (resume update s.phase) u = .idle
    have hwinning := total_update winning s.pc t (resume update s.phase)
    rw [hpc, winning_resume, ← h.counted.trues_eq, hclosed.1, winning, Nat.add_zero] at hwinning
    by_cases hu : u = t
    · rw [hu, Function.update_self, resume, if_pos hlast]
    · have hle := le_total winning (Function.update s.pc t (resume update s.phase)) u
      rw [Function.update_of_ne hu] at hle ⊢
      have hle' := le_total unbegun s.pc u
      exact idle_of_none (h.threads u) (none_climbing h htrues u) (by omega) (by omega)
  · intro r k hslot
    show s.tickets (k * 2 ^ r) r = s.phase + 2
    rw [h.tickets r k hslot, full_of_trues h htrues hslot, mark_full hslot.capacity_pos]
  · intro a ha
    rcases List.mem_cons.mp ha with rfl | hmem
    · exact hclosed
    · exact h.finished a hmem

/-! ## Every arrival returns -/

/-- The compare-exchanges left from a ticket on, where it is looked at again: one
or two in each round, and one or two at each node of the first round. -/
def remainingAt (n round current : ℕ) : ℕ :=
  2 * (64 - round) + 2 * if round = 0 then n - current else 0

/-- No more compare-exchanges than this are ahead of an arrival at this point. -/
def Pc.remaining (n : ℕ) : Pc → ℕ
  | .attempt _ c => remainingAt n c.round c.current + 1
  | .second _ c => remainingAt n c.round c.current
  | .idle | .ready _ _ | .completion _ _ => 0

/-- The arrival of the thread has returned, or is closer to its end. -/
def Nearer {ι : Type} (n : ℕ) (s s' : State ι) (t : ι) : Prop :=
  (s'.account.returned = s.account.returned + 1 ∧ (s'.pc t).climb = none) ∨
    (s'.account = s.account ∧ (s'.pc t).remaining n < (s.pc t).remaining n)

theorem remainingAt_standing (n : ℕ) (phase : Phase) (r k : ℕ) :
    remainingAt n (standing n phase r k).round (standing n phase r k).current =
      remainingAt n r k := by
  rw [standing]
  cases r with
  | zero => rw [pow_zero, Nat.mul_one]
  | succ r => rw [remainingAt, remainingAt, if_neg (Nat.succ_ne_zero r), if_neg (Nat.succ_ne_zero r)]

theorem remaining_attempt (n update : ℕ) (phase : Phase) (r k : ℕ) :
    (Pc.attempt update (standing n phase r k)).remaining n = remainingAt n r k + 1 := by
  rw [Pc.remaining, remainingAt_standing]

theorem remaining_second (n update : ℕ) (phase : Phase) (r k : ℕ) :
    (Pc.second update (standing n phase r k)).remaining n = remainingAt n r k := by
  rw [Pc.remaining, remainingAt_standing]

omit [Fintype ι] in
theorem nearer_returns {s' : State ι} (haccount : s'.account = s.account) (update : ℕ)
    (oldPhase : Phase) (last : Bool) :
    Nearer n s (s'.follow t update oldPhase (.returns last)) t := by
  left
  cases last with
  | true =>
    refine ⟨congrArg (·.returned + 1) haccount, ?_⟩
    simp only [State.follow, State.setPc, Function.update_self, Pc.climb]
  | false =>
    refine ⟨congrArg (·.returned + 1) haccount, ?_⟩
    simp only [State.follow, State.setPc, Function.update_self, climb_resume]

omit [Fintype ι] in
theorem nearer_attempt {s' : State ι} (haccount : s'.account = s.account) (update : ℕ)
    (oldPhase : Phase) {r' k' : ℕ}
    (hless : remainingAt n r' k' + 1 < (s.pc t).remaining n) :
    Nearer n s (s'.follow t update oldPhase (.attempt (standing n oldPhase r' k'))) t := by
  refine Or.inr ⟨haccount, ?_⟩
  simp only [State.follow, State.setPc, Function.update_self]
  rwa [remaining_attempt]

omit [Fintype ι] in
/-- Who takes a place returns, or goes to the next round. -/
theorem nearer_take (hle : n ≤ 2 ^ 32) (hslot : Slot n r k) (update taken : ℕ)
    (hremaining : remainingAt n r k ≤ (s.pc t).remaining n) :
    Nearer n s (s.take n t update r k taken) t := by
  have hround := round_lt hle hslot.contested
  have hup : remainingAt n (r + 1) (k / 2) + 1 < (s.pc t).remaining n := by
    refine Nat.lt_of_lt_of_le ?_ hremaining
    rw [remainingAt, remainingAt, if_neg (Nat.succ_ne_zero r)]
    omega
  rw [State.take]
  split_ifs with hlast
  · rw [hslot.next hle]
    split_ifs with hroot
    · exact nearer_returns rfl update s.phase true
    · exact nearer_attempt rfl update s.phase hup
  · exact nearer_returns rfl update s.phase false

/-- Who passes a node comes to the one after it. -/
theorem nearer_pass (h : Inv n taken s)
    (hclimb : (s.pc t).climb = some (standing n s.phase r k)) (hslot : Slot n r k)
    (hfull : taken r k = capacity n r k) (update : ℕ)
    (hremaining : remainingAt n r k ≤ (s.pc t).remaining n) :
    Nearer n s (s.pass n t update r k) t := by
  obtain rfl := round_zero_of_full h hclimb hslot hfull
  have hslot' := slot_after_full h hclimb hslot hfull
  have hnode : k < n := hslot.lt_width.trans_le (width_succ_le n 0)
  rw [State.pass, advance_first hslot']
  refine nearer_attempt rfl update s.phase (Nat.lt_of_lt_of_le ?_ hremaining)
  rw [remainingAt, remainingAt, if_pos rfl, if_pos rfl]
  omega

theorem nearer_of_attempt (hle : n ≤ 2 ^ 32) (h : Inv n taken s) {c : Climb}
    (hpc : s.pc t = .attempt update c) : Nearer n s (s.attempt t update c) t := by
  have hlocal := h.threads t
  rw [hpc] at hlocal
  obtain ⟨r, k, hslot, rfl⟩ := hlocal
  have hclimb : (s.pc t).climb = some (standing n s.phase r k) := by
    rw [hpc]
    rfl
  have hat : (s.pc t).remaining n = remainingAt n r k + 1 := by
    rw [hpc]
    exact remaining_attempt n update s.phase r k
  have hremaining : remainingAt n r k ≤ (s.pc t).remaining n := by
    rw [hat]
    exact Nat.le_succ _
  rw [attempt_eq hslot (h.climbs.le_capacity r k) (h.tickets r k hslot)]
  split_ifs with hfull hnone
  · exact nearer_pass h hclimb hslot hfull update hremaining
  · exact nearer_take hle hslot update _ hremaining
  · refine Or.inr ⟨rfl, ?_⟩
    simp only [State.setPc, Function.update_self]
    rw [remaining_second, hat]
    exact Nat.lt_succ_self _

theorem nearer_of_second (hle : n ≤ 2 ^ 32) (h : Inv n taken s) {c : Climb}
    (hpc : s.pc t = .second update c) : Nearer n s (s.second t update c) t := by
  have hlocal := h.threads t
  rw [hpc] at hlocal
  obtain ⟨r, k, hslot, rfl, hpos⟩ := hlocal
  have hclimb : (s.pc t).climb = some (standing n s.phase r k) := by
    rw [hpc]
    rfl
  have hremaining : remainingAt n r k ≤ (s.pc t).remaining n := by
    rw [hpc, remaining_second]
  rw [second_eq hpos (h.climbs.le_capacity r k) (h.tickets r k hslot)]
  split_ifs with hfull
  · exact nearer_pass h hclimb hslot hfull update hremaining
  · exact nearer_take hle hslot update _ hremaining

omit [DecidableEq ι] in
theorem inRange_of_inv (hle : n ≤ 2 ^ 32) (h : Inv n taken s) {c : Climb}
    (hclimb : (s.pc t).climb = some c) : c.InRange n := by
  obtain ⟨r, k, hslot, rfl⟩ := (h.threads t).climb hclimb
  exact hslot.inRange hle

/-- The next access of an arrival at a ticket can be made, and brings it closer
to its end. -/
theorem exists_nearer (hle : n ≤ 2 ^ 32) (h : Inv n taken s) {c : Climb}
    (hclimb : (s.pc t).climb = some c) :
    ∃ s', step n s (.exchange t) = some s' ∧ Nearer n s s' t := by
  have hrange := inRange_of_inv hle h hclimb
  cases hpc : s.pc t with
  | attempt update c' =>
    obtain rfl : c' = c := by
      rw [hpc] at hclimb
      exact Option.some.inj hclimb
    refine ⟨s.attempt t update c', ?_, nearer_of_attempt hle h hpc⟩
    simp only [step, h.unfailed, Bool.false_eq_true, if_false, act, hpc, if_pos hrange]
  | second update c' =>
    obtain rfl : c' = c := by
      rw [hpc] at hclimb
      exact Option.some.inj hclimb
    refine ⟨s.second t update c', ?_, nearer_of_second hle h hpc⟩
    simp only [step, h.unfailed, Bool.false_eq_true, if_false, act, hpc, if_pos hrange]
  | idle | ready | completion =>
    rw [hpc] at hclimb
    cases hclimb

/-! ## Runs -/

/-- What the tree barrier owes its users in a state: no failure, accesses inside
the vector, and in each phase one arrival that returns true, after all have
started, and is at the completion until the phase ends.  The arrivals asked for
are those still to begin, those at a ticket, and those that have returned; and
the next access of one at a ticket brings it closer to its return. -/
structure Safe (n : ℕ) (s : State ι) : Prop where
  unfailed : s.failed = false
  inRange : ∀ t c, (s.pc t).climb = some c → c.InRange n
  called_eq : s.account.called = total unbegun s.pc + total climbing s.pc + s.account.returned
  called_le : s.account.called ≤ n
  nearer : ∀ t c, (s.pc t).climb = some c →
    ∃ s', step n s (.exchange t) = some s' ∧ Nearer n s s' t
  trues_eq : s.account.trues = total winning s.pc
  at_most_once : s.account.trues ≤ 1
  after_all : 0 < s.account.trues → s.account.starts.length = n
  at_least_once : s.account.returned = n → s.account.trues = 1
  finished : ∀ a ∈ s.finished, Closed n a

theorem Inv.safe (hn : 0 < n) (hle : n ≤ 2 ^ 32) (h : Inv n taken s) : Safe n s where
  unfailed := h.unfailed
  inRange _ _ hclimb := inRange_of_inv hle h hclimb
  called_eq := by
    have hcalled := h.counted.called_eq
    have hreturned := h.counted.returned_eq
    omega
  called_le := h.counted.called_le
  nearer _ _ hclimb := exists_nearer hle h hclimb
  trues_eq := h.counted.trues_eq
  at_most_once := trues_le_one h hn
  after_all := all_started h hn
  at_least_once := trues_of_returned h hn
  finished := h.finished

theorem inv_step (hn : 0 < n) (hle : n ≤ 2 ^ 32) {s s' : State ι} {l : Label ι}
    (h : Inv n taken s) (hcond : Contract n s l ∧ HintsFit n s l) (hstep : step n s l = some s') :
    ∃ taken', Inv n taken' s' := by
  obtain ⟨hcontract, hhints⟩ := hcond
  rcases step_cases hstep with ⟨t, node, rfl, rfl⟩ | ⟨t, update, rfl, hpc, rfl⟩ |
    ⟨t, update, oldPhase, rfl, hpc, rfl⟩ | ⟨t, update, c, hpc, rfl⟩ | ⟨t, update, c, hpc, rfl⟩ |
    ⟨t, update, oldPhase, hpc, rfl⟩
  · exact ⟨taken, h.unfailed, h.threads, h.tickets, h.climbs, h.searches, h.hints, h.counted,
      h.single, h.root, h.finished⟩
  · exact ⟨taken, inv_call h hpc hcontract.1 hcontract.2⟩
  · exact ⟨taken, inv_begin hn h hpc hhints⟩
  · exact inv_attempt hle h hpc
  · exact inv_second hle h hpc
  · exact ⟨_, inv_complete hn h hpc⟩

/-- In a run whose hints leave room, every state is as it should be. -/
theorem tree_arrivals (hn : 0 < n) (hle : n ≤ 2 ^ 32)
    (h : (system ι n).Reachable (fun s l => Contract n s l ∧ HintsFit n s l) s) : Safe n s := by
  obtain ⟨taken, hinv⟩ := h.invariant (P := fun s => ∃ taken, Inv n taken s) (by
    rintro s ⟨favorite, rfl⟩
    exact ⟨_, inv_start favorite⟩) (by
    rintro s l s' ⟨taken, hinv⟩ hcond hstep
    exact inv_step hn hle hinv hcond hstep)
  exact hinv.safe hn hle

/-- Three arrivals of two threads.  The one that starts at the last node takes it
alone. -/
theorem tree_arrivals_three : ∃ s : State (Fin 2),
    (system (Fin 2) 3).exec (fun s l => Contract 3 s l ∧ HintsFit 3 s l) (start fun t => t.val)
      [.call 0 2, .call 1 1, .begin 1, .exchange 1, .exchange 1, .begin 0, .exchange 0,
        .begin 0, .exchange 0, .exchange 0, .exchange 0, .exchange 0, .complete 0] = some s ∧
    s.phase = 2 ∧ s.finished = [⟨3, [0, 0, 1], 3, 1⟩] ∧ Safe 3 s := by
  have hrun : ((system (Fin 2) 3).exec (fun s l => Contract 3 s l ∧ HintsFit 3 s l)
      (start fun t => t.val)
      [.call 0 2, .call 1 1, .begin 1, .exchange 1, .exchange 1, .begin 0, .exchange 0,
        .begin 0, .exchange 0, .exchange 0, .exchange 0, .exchange 0, .complete 0]).map
        (fun s => (s.phase, s.finished)) = some (2, [⟨3, [0, 0, 1], 3, 1⟩]) := by
    decide
  obtain ⟨s, hs, heq⟩ := Option.map_eq_some_iff.mp hrun
  have hsafe : Safe 3 s :=
    tree_arrivals (by decide) (by decide) (System.reachable_of_exec ⟨_, rfl⟩ hs)
  exact ⟨s, hs, congrArg Prod.fst heq, congrArg Prod.snd heq, hsafe⟩

/-- Of two arrivals, none may start at node 1: the vector has one node. -/
theorem tree_arrivals_not_safe : ∃ s : State (Fin 2),
    (system (Fin 2) 2).exec (Contract 2) (start fun _ => 0)
      [.favor 0 1, .call 0 1, .begin 0, .exchange 0] = some s ∧
    s.failed = true ∧ ¬ Safe 2 s := by
  refine ⟨_, rfl, rfl, fun h => ?_⟩
  exact Bool.false_ne_true h.unfailed.symm

end Libhipcxx.Barrier.Tree
