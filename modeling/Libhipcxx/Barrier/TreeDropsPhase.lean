import Libhipcxx.Barrier.TreeDrops

/-!
# Phases of the tree barrier with drops

Within a phase the tree is one that expects the phase's quota.  Once a thread has
won the last round every arrival of the phase has been asked for, so no drop is
announced while the adjustment is added to the expected count and cleared, and
the next phase begins with a smaller tree whose tickets are all at its phase.
-/

namespace Libhipcxx.Barrier.TreeDrops

open Transition Threads Barrier.Tree Tournament

/-! ## What a step at the tree leaves alone -/

variable {ι : Type} [DecidableEq ι]

/-- A step of thread `t` at the tree. -/
structure Frame (t : ι) (s s' : Tree.State ι) : Prop where
  phase : s'.phase = s.phase
  called : s'.account.called = s.account.called
  returned : s'.account.returned = s.account.returned ∨
    s'.account.returned = s.account.returned + 1
  pc : ∀ u, u ≠ t → s'.pc u = s.pc u

variable {s s' : Tree.State ι} {t : ι} {update : ℕ}

theorem frame_setPc (s : Tree.State ι) (t : ι) (pc : Pc) : Frame t s (s.setPc t pc) :=
  ⟨rfl, rfl, Or.inl rfl, fun _ hu => Function.update_of_ne hu _ _⟩

omit [DecidableEq ι] in
theorem frame_fail (s : Tree.State ι) (t : ι) : Frame t s s.fail :=
  ⟨rfl, rfl, Or.inl rfl, fun _ _ => rfl⟩

theorem frame_follow (s : Tree.State ι) (t : ι) (update : ℕ) (oldPhase : Phase) (o : Outcome) :
    Frame t s (s.follow t update oldPhase o) := by
  cases o with
  | attempt c => exact ⟨rfl, rfl, Or.inl rfl, fun _ hu => Function.update_of_ne hu _ _⟩
  | returns last =>
    cases last <;>
      exact ⟨rfl, rfl, Or.inr rfl, fun _ hu => Function.update_of_ne hu _ _⟩
  | fails => exact frame_fail s t

theorem frame_begin (n : ℕ) (s : Tree.State ι) (t : ι) (update : ℕ) (oldPhase : Phase) :
    Frame t s (s.begin n t update oldPhase) := by
  have hframe := frame_follow { s with account := s.account.begin (startIndex n (s.favorite t)) }
    t update oldPhase (Climb.enter ⟨oldPhase, 0, s.favorite t, n, n / 2⟩)
  exact ⟨hframe.phase, hframe.called, hframe.returned, hframe.pc⟩

theorem frame_ticket (s : Tree.State ι) (t : ι) (update : ℕ) (c : Climb) (value : Phase)
    (o : Outcome) : Frame t s ((s.setTicket c value).follow t update c.oldPhase o) := by
  have hframe := frame_follow (s.setTicket c value) t update c.oldPhase o
  exact ⟨hframe.phase, hframe.called, hframe.returned, hframe.pc⟩

theorem frame_attempt (s : Tree.State ι) (t : ι) (update : ℕ) (c : Climb) :
    Frame t s (s.attempt t update c) := by
  simp only [Tree.State.attempt]
  split_ifs
  · exact frame_ticket s t update c _ _
  · exact frame_follow s t update _ _
  · exact frame_fail s t
  · exact frame_ticket s t update c _ _
  · exact frame_setPc s t _
  · exact frame_follow s t update _ _

theorem frame_second (s : Tree.State ι) (t : ι) (update : ℕ) (c : Climb) :
    Frame t s (s.second t update c) := by
  simp only [Tree.State.second]
  split_ifs
  · exact frame_ticket s t update c _ _
  · exact frame_follow s t update _ _
  · exact frame_fail s t

/-! ## The invariant -/

theorem tokenOf_succ (k : ℕ) : tokenOf (k + 1) = tokenOf k + 2 := by
  rw [tokenOf, Nat.mul_succ, BitVec.ofNat_add]
  rfl

/-- The `arrive` of `arrive_and_drop` is ahead. -/
def leaving : Stage → ℕ
  | .dropped => 1
  | _ => 0

/-- What a thread's stage says of its point at the tree. -/
def Local {ι : Type} (phaseNo : ℕ) (closing : Option ι) (t : ι) (pc : Pc) : Stage → Prop
  | .tree => closing ≠ some t
  | .dropped => closing ≠ some t ∧ pc = .idle
  | .adjusted => closing = some t ∧ winning pc = 1
  | .cleared => closing = some t ∧ winning pc = 1
  | .waiting token k => closing ≠ some t ∧ pc = .idle ∧ token = tokenOf k ∧ k ≤ phaseNo

/-- The adjustment: the drops announced, until the closing thread clears them. -/
def adjustmentValue {ι : Type} (drops : ℕ) (stage : ι → Stage) : Option ι → ℤ
  | none => -drops
  | some t => if stage t = .cleared then 0 else -drops

variable [Fintype ι]

/-- The invariant, with the places taken in each slot. -/
structure Inv (size : ℕ) (taken : ℕ → ℕ → ℕ) (s : State ι) : Prop where
  tree : Tree.Inv s.quota taken s.tree
  quota_le : s.quota ≤ size
  phase_eq : s.tree.phase = tokenOf s.phaseNo
  issued_eq : s.issued = s.tree.account.called + total leaving s.stage
  issued_le : s.issued ≤ s.quota
  drops_le : s.drops ≤ s.issued
  expected_eq : s.expected = if s.closing = none then (s.quota : ℤ) else s.quota - s.drops
  adjustment_eq : s.adjustment = adjustmentValue s.drops s.stage s.closing
  completions_eq : s.completions = s.phaseNo + if s.closing = none then 0 else 1
  threads : ∀ t, Local s.phaseNo s.closing t (s.tree.pc t) (s.stage t)
  idle_of_zero : s.quota = 0 → ∀ t, s.tree.pc t = .idle
  finished : ∀ p ∈ s.finished, Closed p.1 p.2

omit [DecidableEq ι] in
theorem inv_start (n : ℕ) (favorite : ι → ℕ) : Inv n (fun _ _ => 0) (start n favorite) where
  tree := Tree.inv_start favorite
  quota_le := le_rfl
  phase_eq := rfl
  issued_eq := by
    rw [total_const_zero leaving (start n favorite).stage fun _ => rfl]
    rfl
  issued_le := Nat.zero_le n
  drops_le := le_rfl
  expected_eq := rfl
  adjustment_eq := rfl
  completions_eq := rfl
  threads t := (Option.some_ne_none t).symm
  idle_of_zero _ _ := rfl
  finished _ hp := by cases hp

variable {size : ℕ} {taken : ℕ → ℕ → ℕ} {s s' : State ι} {t : ι} {update : ℕ}

omit [DecidableEq ι] in
theorem trues_of_winning (h : Inv size taken s) (hwinning : winning (s.tree.pc t) = 1) :
    0 < s.tree.account.trues ∧ 0 < s.quota := by
  constructor
  · have hle := le_total winning s.tree.pc t
    rw [hwinning, ← h.tree.counted.trues_eq] at hle
    exact hle
  · by_contra hzero
    rw [h.idle_of_zero (Nat.eq_zero_of_not_pos hzero) t] at hwinning
    cases hwinning

omit [DecidableEq ι] in
/-- When a thread has won the last round, every arrival of the phase has been
asked for and has begun. -/
theorem all_issued (h : Inv size taken s) (hwinning : winning (s.tree.pc t) = 1) :
    s.issued = s.quota ∧ total unbegun s.tree.pc = 0 ∧ total leaving s.stage = 0 := by
  obtain ⟨htrues, hpos⟩ := trues_of_winning h hwinning
  have hstarts := all_started h.tree hpos htrues
  have hcalled := h.tree.counted.called_eq
  have hissued := h.issued_eq
  have hle := h.issued_le
  omega

omit [DecidableEq ι] in
theorem winning_of_closing (h : Inv size taken s) (hclosing : s.closing = some t) :
    winning (s.tree.pc t) = 1 := by
  have hlocal := h.threads t
  cases hstage : s.stage t with
  | adjusted =>
    rw [hstage] at hlocal
    exact hlocal.2
  | cleared =>
    rw [hstage] at hlocal
    exact hlocal.2
  | tree =>
    rw [hstage] at hlocal
    exact absurd hclosing hlocal
  | dropped | waiting token k =>
    rw [hstage] at hlocal
    exact absurd hclosing hlocal.1

omit [DecidableEq ι] in
/-- While an arrival can still be asked for, or has still to begin, nobody is past
the completion function. -/
theorem closing_none (h : Inv size taken s)
    (hroom : s.issued < s.quota ∨ 0 < unbegun (s.tree.pc t) ∨ 0 < leaving (s.stage t)) :
    s.closing = none := by
  by_contra hsome
  obtain ⟨u, hclosing⟩ := Option.ne_none_iff_exists'.mp hsome
  have hall := all_issued h (winning_of_closing h hclosing)
  have hunbegun := le_total unbegun s.tree.pc t
  have hleaving := le_total leaving s.stage t
  omega

omit [DecidableEq ι] in
/-- A tree without arrivals is also one that expects fewer. -/
theorem inv_shrink {n m : ℕ} {s : Tree.State ι} (h : Tree.Inv n (fun _ _ => 0) s)
    (hfresh : s.account = .fresh) (hle : m ≤ n) :
    Tree.Inv m (fun _ _ => 0) { s with finished := [] } := by
  have hnone (a : Account) (ha : a ∈ ([] : List Account)) : Closed m a := by cases ha
  refine inv_fresh (s := { s with finished := [] }) h.unfailed
    (fun u => idle_of_fresh h hfresh u) hfresh
    (fun r k hslot => ?_) hnone
  have hwider : Slot n r k := ⟨hslot.contested.trans_le (width_mono hle r),
    hslot.lt_width.trans_le (width_mono hle (r + 1))⟩
  have hticket := h.tickets r k hwider
  rwa [add_mark_zero] at hticket

/-! ## One step -/

omit [Fintype ι] in
theorem threads_update {phaseNo : ℕ} {closing closing' : Option ι} {pc pc' : ι → Pc}
    {stages : ι → Stage} {stage : Stage} (h : ∀ u, Local phaseNo closing u (pc u) (stages u))
    (hclosing : ∀ u, u ≠ t → (closing' = some u ↔ closing = some u))
    (hpc : ∀ u, u ≠ t → pc' u = pc u) (hnew : Local phaseNo closing' t (pc' t) stage) (u : ι) :
    Local phaseNo closing' u (pc' u) (Function.update stages t stage u) := by
  by_cases hu : u = t
  · rw [hu, Function.update_self]
    exact hnew
  · have hold := h u
    rw [Function.update_of_ne hu, hpc u hu]
    cases hstage : stages u with
    | tree =>
      rw [hstage] at hold
      exact (hclosing u hu).not.mpr hold
    | dropped | waiting token k =>
      rw [hstage] at hold
      exact ⟨(hclosing u hu).not.mpr hold.1, hold.2⟩
    | adjusted | cleared =>
      rw [hstage] at hold
      exact ⟨(hclosing u hu).mpr hold.1, hold.2⟩

omit [Fintype ι] in
theorem adjustmentValue_update {drops : ℕ} {stages : ι → Stage} {stage : Stage}
    {closing : Option ι} (hne : closing ≠ some t) :
    adjustmentValue drops (Function.update stages t stage) closing =
      adjustmentValue drops stages closing := by
  cases closing with
  | none => rfl
  | some u =>
    have hu : u ≠ t := fun heq => hne (congrArg some heq)
    rw [adjustmentValue, adjustmentValue, Function.update_of_ne hu]

omit [Fintype ι] [DecidableEq ι] in
/-- A thread that steps at the tree is not past its completion function. -/
theorem local_tree {phaseNo : ℕ} {closing : Option ι} {pc : Pc} {stage : Stage}
    (h : Local phaseNo closing t pc stage) (hstage : stage = .tree) : closing ≠ some t := by
  rw [hstage] at h
  exact h

/-- A step of a thread at the tree. -/
theorem inv_frame (h : Inv size taken s) (hstage : s.stage t = .tree) {tree : Tree.State ι}
    {taken' : ℕ → ℕ → ℕ} (hframe : Frame t s.tree tree) (htree : Tree.Inv s.quota taken' tree)
    (hpos : 0 < s.quota) : Inv size taken' (s.setTree tree) := by
  refine ⟨htree, h.quota_le, hframe.phase.trans h.phase_eq, ?_, h.issued_le, h.drops_le,
    h.expected_eq, h.adjustment_eq, h.completions_eq, fun u => ?_,
    fun hzero => absurd hzero hpos.ne', h.finished⟩
  · have hissued := h.issued_eq
    rwa [← hframe.called] at hissued
  · have hold := h.threads u
    by_cases hu : u = t
    · rw [hu, hstage] at hold
      have hnew : Local s.phaseNo s.closing t (tree.pc t) .tree := hold
      rw [← hstage] at hnew
      rw [hu]
      exact hnew
    · show Local s.phaseNo s.closing u (tree.pc u) (s.stage u)
      rwa [hframe.pc u hu]

omit [DecidableEq ι] in
theorem quota_pos (h : Inv size taken s) (hbusy : s.tree.pc t ≠ .idle) : 0 < s.quota :=
  Nat.pos_of_ne_zero fun hzero => hbusy (h.idle_of_zero hzero t)

theorem inv_favor (h : Inv size taken s) (node : ℕ) : Inv size taken (s.favor t node) :=
  ⟨⟨h.tree.unfailed, h.tree.threads, h.tree.tickets, h.tree.climbs, h.tree.searches, h.tree.hints,
    h.tree.counted, h.tree.single, h.tree.root, h.tree.finished⟩, h.quota_le, h.phase_eq,
    h.issued_eq, h.issued_le, h.drops_le, h.expected_eq, h.adjustment_eq, h.completions_eq,
    h.threads, h.idle_of_zero, h.finished⟩

theorem inv_arrive (h : Inv size taken s) (hidle : s.Idle t) (hpos : 0 < update)
    (hquota : s.issued + update ≤ s.quota) : Inv size taken (s.arrive t update) := by
  obtain ⟨hstage, hpc⟩ := hidle
  have hissued := h.issued_eq
  have htree := Tree.inv_call h.tree hpc hpos (by omega)
  rw [State.arrive, Tree.State.call, if_pos hpos]
  rw [Tree.State.call, if_pos hpos] at htree
  refine ⟨htree, h.quota_le, h.phase_eq, ?_, hquota, h.drops_le.trans (Nat.le_add_right _ _),
    h.expected_eq, h.adjustment_eq, h.completions_eq, fun u => ?_, fun hzero => ?_, h.finished⟩
  · simp only [Account.call_called]
    omega
  · have hnew : Local s.phaseNo s.closing t (Pc.ready update s.tree.phase) .tree :=
      local_tree (h.threads t) hstage
    have hmoved (v : ι) (hv : v ≠ t) :
        Function.update s.tree.pc t (.ready update s.tree.phase) v = s.tree.pc v :=
      Function.update_of_ne hv _ _
    have hthreads := threads_update h.threads (fun _ _ => Iff.rfl) hmoved
      (by rwa [Function.update_self]) u
    rw [← hstage, Function.update_eq_self] at hthreads
    exact hthreads
  · have hzero' : s.quota = 0 := hzero
    omega

theorem inv_drop (h : Inv size taken s) (hidle : s.Idle t)
    (hquota : s.issued + 1 ≤ s.quota) : Inv size taken (s.drop t) := by
  obtain ⟨hstage, hpc⟩ := hidle
  have hclosing := closing_none (t := t) h (Or.inl hquota)
  have htotal : total leaving (Function.update s.stage t .dropped) = total leaving s.stage + 1 := by
    apply total_update_of_add
    rw [hstage]
    rfl
  refine ⟨h.tree, h.quota_le, h.phase_eq, ?_, hquota, Nat.add_le_add_right h.drops_le 1, ?_, ?_,
    h.completions_eq, ?_, h.idle_of_zero, h.finished⟩
  · have hissued := h.issued_eq
    simp only [State.drop, State.setStage]
    omega
  · have hexpected := h.expected_eq
    rw [if_pos hclosing] at hexpected
    exact hexpected.trans (if_pos hclosing).symm
  · have hadjustment := h.adjustment_eq
    simp only [State.drop, State.setStage, hclosing, adjustmentValue] at hadjustment ⊢
    omega
  · have hnew : Local s.phaseNo s.closing t (s.tree.pc t) .dropped :=
      ⟨local_tree (h.threads t) hstage, hpc⟩
    exact threads_update h.threads (fun _ _ => Iff.rfl) (fun _ _ => rfl) hnew

theorem inv_wait (h : Inv size taken s) (hidle : s.Idle t) {k : ℕ} (hle : k ≤ s.phaseNo) :
    Inv size taken (s.setStage t (.waiting (tokenOf k) k)) := by
  obtain ⟨hstage, hpc⟩ := hidle
  have hne := local_tree (h.threads t) hstage
  have htotal : total leaving (Function.update s.stage t (.waiting (tokenOf k) k)) =
      total leaving s.stage := by
    apply total_update_of_eq
    rw [hstage]
    rfl
  refine ⟨h.tree, h.quota_le, h.phase_eq, h.issued_eq.trans (congrArg _ htotal.symm), h.issued_le,
    h.drops_le, h.expected_eq, h.adjustment_eq.trans (adjustmentValue_update hne).symm,
    h.completions_eq, ?_, h.idle_of_zero, h.finished⟩
  exact threads_update h.threads (fun _ _ => Iff.rfl) (fun _ _ => rfl) ⟨hne, hpc, rfl, hle⟩

theorem inv_poll (h : Inv size taken s) {token : Phase} {k : ℕ}
    (hstage : s.stage t = .waiting token k) : Inv size taken (s.poll t token) := by
  have hlocal := h.threads t
  rw [hstage] at hlocal
  have htotal : total leaving (Function.update s.stage t .tree) = total leaving s.stage := by
    apply total_update_of_eq
    rw [hstage]
    rfl
  rw [State.poll]
  split_ifs
  · refine ⟨h.tree, h.quota_le, h.phase_eq, h.issued_eq.trans (congrArg _ htotal.symm),
      h.issued_le, h.drops_le, h.expected_eq,
      h.adjustment_eq.trans (adjustmentValue_update hlocal.1).symm, h.completions_eq, ?_,
      h.idle_of_zero, h.finished⟩
    exact threads_update h.threads (fun _ _ => Iff.rfl) (fun _ _ => rfl) hlocal.1
  · exact h

theorem inv_arriveDropped (h : Inv size taken s) (hstage : s.stage t = .dropped) :
    Inv size taken (s.arriveDropped t) := by
  have hlocal := h.threads t
  rw [hstage] at hlocal
  have htotal : total leaving s.stage = total leaving (Function.update s.stage t .tree) + 1 := by
    have hmove := total_update leaving s.stage t .tree
    rw [hstage] at hmove
    exact hmove.symm
  have hissued := h.issued_eq
  have hle := h.issued_le
  have htree := Tree.inv_call h.tree hlocal.2 Nat.one_pos (by omega)
  rw [State.arriveDropped, Tree.State.call, if_pos Nat.one_pos]
  rw [Tree.State.call, if_pos Nat.one_pos] at htree
  refine ⟨htree, h.quota_le, h.phase_eq, ?_, h.issued_le, h.drops_le, h.expected_eq,
    h.adjustment_eq.trans (adjustmentValue_update hlocal.1).symm, h.completions_eq, ?_,
    fun hzero => ?_, h.finished⟩
  · simp only [State.setStage, Account.call_called]
    omega
  · exact threads_update h.threads (fun _ _ => Iff.rfl)
      (fun u hu => Function.update_of_ne hu _ _) hlocal.1
  · have hzero' : s.quota = 0 := hzero
    omega

theorem inv_adjust (h : Inv size taken s) (hstage : s.stage t = .tree) {oldPhase : Phase}
    (hpc : s.tree.pc t = .completion update oldPhase) : Inv size taken (s.adjust t) := by
  have hwinning : winning (s.tree.pc t) = 1 := by
    rw [hpc]
    rfl
  have hclosing : s.closing = none := by
    by_contra hsome
    obtain ⟨u, hu⟩ := Option.ne_none_iff_exists'.mp hsome
    have hne : u ≠ t := fun heq => local_tree (h.threads t) hstage (heq ▸ hu)
    obtain ⟨htrues, hpos⟩ := trues_of_winning h hwinning
    -- two threads would have won
    have htwo := total_update winning s.tree.pc t .idle
    have hone := le_total winning (Function.update s.tree.pc t .idle) u
    have hcount := trues_le_one h.tree hpos
    rw [Function.update_of_ne hne, winning_of_closing h hu] at hone
    rw [hwinning, ← h.tree.counted.trues_eq] at htwo
    simp only [winning] at htwo
    omega
  have htotal : total leaving (Function.update s.stage t .adjusted) = total leaving s.stage := by
    apply total_update_of_eq
    rw [hstage]
    rfl
  have hexpected := h.expected_eq
  have hadjustment := h.adjustment_eq
  have hcompletions := h.completions_eq
  rw [if_pos hclosing] at hexpected hcompletions
  rw [hclosing, adjustmentValue] at hadjustment
  refine ⟨h.tree, h.quota_le, h.phase_eq, h.issued_eq.trans (congrArg _ htotal.symm), h.issued_le,
    h.drops_le, ?_, ?_, ?_, ?_, h.idle_of_zero, h.finished⟩
  · simp only [State.adjust, State.setStage, reduceCtorEq, if_false]
    omega
  · simp only [State.adjust, State.setStage, adjustmentValue, Function.update_self, reduceCtorEq,
      if_false]
    exact hadjustment
  · simp only [State.adjust, State.setStage, reduceCtorEq, if_false]
    omega
  · refine threads_update h.threads (fun u hu => ?_) (fun _ _ => rfl) ⟨rfl, hwinning⟩
    rw [hclosing]
    simp only [State.adjust, Option.some.injEq, reduceCtorEq, iff_false]
    exact hu.symm

theorem inv_clear (h : Inv size taken s) (hstage : s.stage t = .adjusted) :
    Inv size taken (s.clear t) := by
  have hlocal := h.threads t
  rw [hstage] at hlocal
  obtain ⟨hclosing, hwinning⟩ := hlocal
  have htotal : total leaving (Function.update s.stage t .cleared) = total leaving s.stage := by
    apply total_update_of_eq
    rw [hstage]
    rfl
  refine ⟨h.tree, h.quota_le, h.phase_eq, h.issued_eq.trans (congrArg _ htotal.symm), h.issued_le,
    h.drops_le, h.expected_eq, ?_, h.completions_eq, ?_, h.idle_of_zero, h.finished⟩
  · simp only [State.clear, State.setStage, hclosing, adjustmentValue, Function.update_self, if_true]
  · exact threads_update h.threads (fun _ _ => Iff.rfl) (fun _ _ => rfl) ⟨hclosing, hwinning⟩

/-- The phase ends, and the next one expects those that have not dropped. -/
theorem inv_storePhase (h : Inv size taken s) (hstage : s.stage t = .cleared) {oldPhase : Phase}
    (hpc : s.tree.pc t = .completion update oldPhase) :
    Inv size (fun _ _ => 0) (s.storePhase t update oldPhase) := by
  have hlocal := h.threads t
  rw [hstage] at hlocal
  obtain ⟨hclosing, hwinning⟩ := hlocal
  obtain ⟨htrues, hpos⟩ := trues_of_winning h hwinning
  obtain ⟨hissued, -, hleaving⟩ := all_issued h hwinning
  have hdrops := h.drops_le
  have hold : oldPhase = s.tree.phase := by
    have hpoint := h.tree.threads t
    rw [hpc] at hpoint
    exact hpoint
  have hsome : s.closing ≠ none := by
    rw [hclosing]
    exact Option.some_ne_none t
  have hexpected := h.expected_eq
  have hadjustment := h.adjustment_eq
  have hcompletions := h.completions_eq
  rw [if_neg hsome] at hexpected hcompletions
  rw [hclosing, adjustmentValue, if_pos hstage] at hadjustment
  have hcomplete := Tree.inv_complete hpos h.tree hpc
  have htree := inv_shrink hcomplete rfl (Nat.sub_le s.quota s.drops)
  have hidle (u : ι) : (s.storePhase t update oldPhase).tree.pc u = .idle :=
    idle_of_fresh htree rfl u
  have hstays (u : ι) (hu : u ≠ t) :
      (s.storePhase t update oldPhase).stage u = s.stage u := Function.update_of_ne hu _ _
  have hnone (u : ι) : leaving ((s.storePhase t update oldPhase).stage u) = 0 := by
    by_cases hu : u = t
    · rw [hu]
      simp only [State.storePhase, State.setStage, Function.update_self, leaving]
    · have hle := le_total leaving s.stage u
      rw [hstays u hu]
      omega
  refine ⟨htree, (Nat.sub_le _ _).trans h.quota_le, ?_, ?_, Nat.zero_le _, le_rfl, ?_, hadjustment,
    hcompletions, fun u => ?_, fun _ => hidle, ?_⟩
  · show oldPhase + 2 = tokenOf (s.phaseNo + 1)
    rw [tokenOf_succ, hold, h.phase_eq]
  · rw [total_const_zero leaving _ hnone]
    rfl
  · simp only [State.storePhase, State.setStage, if_true]
    omega
  · have hother := h.threads u
    rw [hidle u]
    by_cases hu : u = t
    · rw [hu]
      simp only [State.storePhase, State.setStage, Function.update_self, Local, ne_eq, reduceCtorEq,
        not_false_eq_true]
    · have hleft := hnone u
      rw [hstays u hu] at hleft ⊢
      cases hstageu : s.stage u with
      | tree => exact (Option.some_ne_none u).symm
      | dropped =>
        rw [hstageu] at hleft
        cases hleft
      | adjusted | cleared =>
        rw [hstageu, Local, hclosing] at hother
        exact absurd (Option.some.inj hother.1).symm hu
      | waiting token k =>
        rw [hstageu] at hother
        exact ⟨(Option.some_ne_none u).symm, rfl, hother.2.2.1, Nat.le_succ_of_le hother.2.2.2⟩
  · intro p hp
    rcases List.mem_cons.mp hp with rfl | hmem
    · exact closed_of_trues h.tree hpos htrues
    · exact h.finished p hmem

/-! ## The accesses of an arrival -/

theorem inRange_mono {n m : ℕ} {c : Climb} (h : c.InRange n) (hle : n ≤ m) : c.InRange m :=
  ⟨h.1.trans_le (Nat.div_le_div_right (Nat.add_le_add_right hle 1)), h.2⟩

omit [DecidableEq ι] in
theorem inRange_of_climb (h : Inv size taken s) (hle : size ≤ 2 ^ 32) {c : Climb}
    (hclimb : (s.tree.pc t).climb = some c) : c.InRange s.quota := by
  obtain ⟨r, k, hslot, rfl⟩ := (h.tree.threads t).climb hclimb
  exact hslot.inRange (h.quota_le.trans hle)

theorem inv_begin (h : Inv size taken s) (hstage : s.stage t = .tree) {oldPhase : Phase}
    (hpc : s.tree.pc t = .ready (update + 1) oldPhase)
    (hhints : Tree.HintsFit s.quota s.tree (.begin t)) :
    Inv size taken (s.begin t update oldPhase) := by
  have hunbegun : 0 < unbegun (s.tree.pc t) := by
    rw [hpc]
    exact Nat.succ_pos update
  have hclosing := closing_none h (Or.inr (Or.inl hunbegun))
  have hexpected : s.expected = s.quota := h.expected_eq.trans (if_pos hclosing)
  have hpos : 0 < s.quota := quota_pos (t := t) h (by rw [hpc]; exact Pc.noConfusion)
  have htree := Tree.inv_begin hpos h.tree hpc hhints
  rw [State.begin, hexpected, if_pos (Int.natCast_nonneg _), Int.toNat_natCast]
  exact inv_frame h hstage (frame_begin s.quota s.tree t update oldPhase) htree hpos

theorem inv_attempt (h : Inv size taken s) (hle : size ≤ 2 ^ 32) (hstage : s.stage t = .tree)
    {c : Climb} (hpc : s.tree.pc t = .attempt update c) :
    ∃ taken', Inv size taken'
      (s.setTree (if c.InRange size then s.tree.attempt t update c else s.tree.fail)) := by
  have hclimb : (s.tree.pc t).climb = some c := by
    rw [hpc]
    rfl
  have hrange := inRange_of_climb h hle hclimb
  have hpos : 0 < s.quota := quota_pos (t := t) h (by rw [hpc]; exact Pc.noConfusion)
  obtain ⟨taken', htree⟩ := Tree.inv_attempt (h.quota_le.trans hle) h.tree hpc
  rw [if_pos hrange] at htree
  rw [if_pos (inRange_mono hrange h.quota_le)]
  exact ⟨taken', inv_frame h hstage (frame_attempt s.tree t update c) htree hpos⟩

theorem inv_second (h : Inv size taken s) (hle : size ≤ 2 ^ 32) (hstage : s.stage t = .tree)
    {c : Climb} (hpc : s.tree.pc t = .second update c) :
    ∃ taken', Inv size taken'
      (s.setTree (if c.InRange size then s.tree.second t update c else s.tree.fail)) := by
  have hclimb : (s.tree.pc t).climb = some c := by
    rw [hpc]
    rfl
  have hrange := inRange_of_climb h hle hclimb
  have hpos : 0 < s.quota := quota_pos (t := t) h (by rw [hpc]; exact Pc.noConfusion)
  obtain ⟨taken', htree⟩ := Tree.inv_second (h.quota_le.trans hle) h.tree hpc
  rw [if_pos hrange] at htree
  rw [if_pos (inRange_mono hrange h.quota_le)]
  exact ⟨taken', inv_frame h hstage (frame_second s.tree t update c) htree hpos⟩

theorem inv_climb (h : Inv size taken s) (hle : size ≤ 2 ^ 32) (hstage : s.stage t = .tree)
    (hhints : HintsFit s (.step t)) (hclimb : climb size s t = some s') :
    ∃ taken', Inv size taken' s' := by
  rw [HintsFit] at hhints
  rcases climb_cases hclimb with ⟨update, oldPhase, hpc, rfl⟩ | ⟨update, c, hpc, rfl⟩ |
    ⟨update, c, hpc, rfl⟩ | ⟨update, oldPhase, hpc, rfl⟩
  · rw [hpc] at hhints
    exact ⟨taken, inv_begin h hstage hpc hhints⟩
  · exact inv_attempt h hle hstage hpc
  · exact inv_second h hle hstage hpc
  · exact ⟨taken, inv_adjust h hstage hpc⟩

theorem inv_step (h : Inv size taken s) (hle : size ≤ 2 ^ 32) {l : Label ι}
    (hcond : Contract s l ∧ HintsFit s l) (hstep : step size s l = some s') :
    ∃ taken', Inv size taken' s' := by
  obtain ⟨hcontract, hhints⟩ := hcond
  rcases step_cases hstep with ⟨t, node, rfl, -, rfl⟩ | ⟨t, update, rfl, hidle, rfl⟩ |
    ⟨t, rfl, hidle, rfl⟩ | ⟨t, k, rfl, hidle, rfl⟩ | ⟨t, rfl, hstage, hclimb⟩ |
    ⟨t, rfl, hstage, rfl⟩ | ⟨t, rfl, hstage, rfl⟩ | ⟨t, update, oldPhase, rfl, hstage, hpc, rfl⟩ |
    ⟨t, token, k, rfl, hstage, rfl⟩
  · exact ⟨taken, inv_favor h node⟩
  · exact ⟨taken, inv_arrive h hidle hcontract.1 hcontract.2⟩
  · exact ⟨taken, inv_drop h hidle hcontract⟩
  · exact ⟨taken, inv_wait h hidle hcontract⟩
  · exact inv_climb h hle hstage hhints hclimb
  · exact ⟨taken, inv_arriveDropped h hstage⟩
  · exact ⟨taken, inv_clear h hstage⟩
  · exact ⟨_, inv_storePhase h hstage hpc⟩
  · exact ⟨taken, inv_poll h hstage⟩

theorem inv_of_reachable {n : ℕ} (hle : n ≤ 2 ^ 32)
    (h : (system ι n).Reachable (fun s l => Contract s l ∧ HintsFit s l) s) :
    ∃ taken, Inv n taken s := by
  refine h.invariant (P := fun s => ∃ taken, Inv n taken s) ?_ ?_
  · rintro s ⟨favorite, rfl⟩
    exact ⟨_, inv_start n favorite⟩
  · rintro s l s' ⟨taken, hinv⟩ hcond hstep
    exact inv_step hinv hle hcond hstep

end Libhipcxx.Barrier.TreeDrops
