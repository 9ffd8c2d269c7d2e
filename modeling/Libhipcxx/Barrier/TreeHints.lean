import Libhipcxx.Barrier.TreeExact

/-!
# The hints that a tree barrier leaves behind

Where the barrier expects one arrival of each thread in each phase, and the
threads use no other tree barrier, every thread comes back to the node where it
took its place in the phase before.  The hints then are as many for each node as
the node has places, so in every phase they leave room.
-/

namespace Libhipcxx.Barrier.TreeHints

open Transition Threads Barrier.Tree Tournament

/-- The tree barrier, and which threads have called it in this phase. -/
structure State (ι : Type) where
  tree : Tree.State ι
  seen : ι → Bool

variable {ι : Type} [DecidableEq ι]

def seenAfter {ι : Type} [DecidableEq ι] (seen : ι → Bool) : Label ι → ι → Bool
  | .call t _ => Function.update seen t true
  | .complete _ => fun _ => false
  | _ => seen

def step (n : ℕ) (s : State ι) (l : Label ι) : Option (State ι) :=
  (Tree.step n s.tree l).map fun tree => ⟨tree, seenAfter s.seen l⟩

/-- No thread has used a tree barrier before. -/
def start (ι : Type) : State ι where
  tree := Tree.start fun _ => 0
  seen _ := false

def system (ι : Type) [DecidableEq ι] (n : ℕ) : System (State ι) (Label ι) where
  start s := s = start ι
  step := step n

/-- Each thread arrives once in a phase, and never at another tree barrier. -/
def Regular {ι : Type} (s : State ι) : Label ι → Prop
  | .call t update => update = 1 ∧ s.seen t = false
  | .favor _ _ => False
  | _ => True

instance {ι : Type} (s : State ι) : (l : Label ι) → Decidable (Regular s l)
  | .call _ _ => inferInstanceAs (Decidable (_ ∧ _))
  | .favor _ _ => inferInstanceAs (Decidable False)
  | .begin _ | .exchange _ | .complete _ => inferInstanceAs (Decidable True)

/-! ## What a thread's hint is worth -/

/-- A thread, its point and its hint. -/
structure View where
  seen : Bool
  pc : Pc
  favorite : ℕ

namespace View

/-- The arrival of this phase has still to begin. -/
def pending (v : View) : Bool :=
  match v.pc with
  | .ready _ _ => true
  | _ => !v.seen

/-- The arrival is in the first round. -/
def searching (v : View) : Bool :=
  match v.pc.climb with
  | some c => decide (c.round = 0)
  | none => false

/-- The arrival has taken a place of the first round. -/
def settled (v : View) : Bool := !v.pending && !v.searching

/-- The arrival of this phase is to start from node `j` or beyond. -/
def pendingFrom (j : ℕ) (v : View) : ℕ := if v.pending = true ∧ j ≤ v.favorite then 1 else 0

/-- The arrival has its place at node `k`. -/
def holding (k : ℕ) (v : View) : ℕ := if v.settled = true ∧ v.favorite = k then 1 else 0

/-- A thread that has not called is idle, a call has one arrival, and a search
takes the hint along. -/
def Ok (v : View) : Prop :=
  (v.seen = false → v.pc = .idle) ∧
    match v.pc with
    | .idle => True
    | .ready update _ => update = 1
    | .attempt update c => update = 0 ∧ (c.round = 0 → v.favorite = c.current)
    | .second update c => update = 0 ∧ (c.round = 0 → v.favorite = c.current)
    | .completion update _ => update = 0

theorem pendingFrom_of_not {v : View} (h : v.pending = false) (j : ℕ) : v.pendingFrom j = 0 := by
  rw [pendingFrom, h]
  exact if_neg fun hall => Bool.false_ne_true hall.1

theorem holding_of_not {v : View} (h : v.settled = false) (k : ℕ) : v.holding k = 0 := by
  rw [holding, h]
  exact if_neg fun hall => Bool.false_ne_true hall.1

theorem holding_of_settled {v : View} (h : v.settled = true) (k : ℕ) :
    v.holding k = if v.favorite = k then 1 else 0 := by
  rw [holding, h]
  simp only [true_and]

theorem not_settled_of_pending {v : View} (h : v.pending = true) : v.settled = false := by
  rw [settled, h]
  rfl

theorem not_settled_of_searching {v : View} (h : v.searching = true) : v.settled = false := by
  rw [settled, h, Bool.not_true, Bool.and_false]

theorem settled_of_not {v : View} (hpending : v.pending = false) (hsearching : v.searching = false) :
    v.settled = true := by
  rw [settled, hpending, hsearching]
  rfl

theorem seen_of_busy {v : View} (h : v.Ok) (hbusy : v.pc ≠ .idle) : v.seen = true := by
  by_contra hseen
  exact hbusy (h.1 (Bool.eq_false_iff.mpr hseen))

theorem not_pending_of_climb {v : View} (h : v.Ok) {c : Climb} (hclimb : v.pc.climb = some c) :
    v.pending = false := by
  have hbusy : v.pc ≠ .idle := by
    intro hidle
    rw [hidle] at hclimb
    cases hclimb
  have hseen := seen_of_busy h hbusy
  rw [pending]
  cases hpc : v.pc with
  | ready update oldPhase =>
    rw [hpc] at hclimb
    cases hclimb
  | idle | attempt _ _ | second _ _ | completion _ _ => exact congrArg (!·) hseen

theorem unbegun_of_climb {v : View} (h : v.Ok) {c : Climb} (hclimb : v.pc.climb = some c) :
    unbegun v.pc = 0 ∧ (c.round = 0 → v.favorite = c.current) := by
  have hpoint := h.2
  cases hpc : v.pc with
  | attempt update c' =>
    rw [hpc] at hpoint hclimb
    cases hclimb
    exact hpoint
  | second update c' =>
    rw [hpc] at hpoint hclimb
    cases hclimb
    exact hpoint
  | idle | ready _ _ | completion _ _ =>
    rw [hpc] at hclimb
    cases hclimb

end View

open View

def view {ι : Type} (s : State ι) (t : ι) : View := ⟨s.seen t, s.tree.pc t, s.tree.favorite t⟩

/-- A step that changes one thread's point and hint. -/
theorem view_update {s s' : State ι} {t : ι} {v : View}
    (hseen : s'.seen = Function.update s.seen t v.seen)
    (hpc : s'.tree.pc = Function.update s.tree.pc t v.pc)
    (hfavorite : s'.tree.favorite = Function.update s.tree.favorite t v.favorite) :
    view s' = Function.update (view s) t v := by
  funext u
  rw [view, hseen, hpc, hfavorite]
  by_cases hu : u = t
  · rw [hu, Function.update_self, Function.update_self, Function.update_self,
      Function.update_self]
  · rw [Function.update_of_ne hu, Function.update_of_ne hu, Function.update_of_ne hu,
      Function.update_of_ne hu]
    rfl

/-! ## The invariant -/

variable [Fintype ι] {n r k update : ℕ} {taken taken' : ℕ → ℕ → ℕ} {s : State ι} {t : ι}

/-- The hints leave room for those that have still to begin, and the others hold
the places taken in the first round. -/
structure Hints (n : ℕ) (taken : ℕ → ℕ → ℕ) (s : State ι) : Prop where
  threads : ∀ t, (view s t).Ok
  called_eq : s.tree.account.called = total (fun v => v.seen.toNat) (view s)
  room : ∀ j < n, 0 < j →
    s.tree.account.starts.countP (j ≤ ·) + total (pendingFrom j) (view s) ≤ n - 2 * j
  held : 1 < n → ∀ k, total (holding k) (view s) = taken 0 k

omit [DecidableEq ι] in
/-- A phase that nobody has called. -/
theorem hints_fresh {s : State ι} (hseen : ∀ t, s.seen t = false) (hidle : ∀ t, s.tree.pc t = .idle)
    (haccount : s.tree.account = .fresh)
    (hroom : ∀ j < n, 0 < j → total (fun v => if j ≤ v.favorite then 1 else 0) (view s) ≤ n - 2 * j) :
    Hints n (fun _ _ => 0) s := by
  have hpending (t : ι) : (view s t).pending = true := by
    rw [pending, view, hidle t, hseen t]
    rfl
  refine ⟨fun t => ⟨fun _ => hidle t, ?_⟩, ?_, fun j hj hpos => ?_, fun _ k => ?_⟩
  · simp only [view, hidle t]
  · rw [haccount, total_const_zero _ _ fun t => ?_]
    · rfl
    · rw [view, hseen t]
      rfl
  · have hsame : total (pendingFrom j) (view s) =
        total (fun v => if j ≤ v.favorite then 1 else 0) (view s) := by
      refine Finset.sum_congr rfl fun t _ => ?_
      rw [pendingFrom, hpending t]
      simp only [true_and]
    rw [haccount, hsame]
    exact (Nat.zero_add _).trans_le (hroom j hj hpos)
  · exact total_const_zero _ _ fun t => holding_of_not (not_settled_of_pending (hpending t)) k

omit [DecidableEq ι] in
theorem hints_start : Hints n (fun _ _ => 0) (start ι) := by
  refine hints_fresh (fun _ => rfl) (fun _ => rfl) rfl fun j _ hpos => ?_
  have hnone : total (fun v : View => if j ≤ v.favorite then 1 else 0) (view (start ι)) = 0 :=
    total_const_zero _ _ fun t => if_neg (not_le.mpr hpos)
  rw [hnone]
  exact Nat.zero_le _

/-- A thread moves within its arrival. -/
theorem Hints.move (h : Hints n taken s) {tree : Tree.State ι} (v : View) (hseen : v.seen = s.seen t)
    (hpc : tree.pc = Function.update s.tree.pc t v.pc)
    (hfavorite : tree.favorite = Function.update s.tree.favorite t v.favorite)
    (hcalled : tree.account.called = s.tree.account.called) (hok : v.Ok)
    (hroom : ∀ j, tree.account.starts.countP (j ≤ ·) + pendingFrom j v ≤
      s.tree.account.starts.countP (j ≤ ·) + pendingFrom j (view s t))
    (hheld : 1 < n → ∀ k, holding k v + taken 0 k = holding k (view s t) + taken' 0 k) :
    Hints n taken' ⟨tree, s.seen⟩ := by
  have hsame : s.seen = Function.update s.seen t v.seen := by
    rw [hseen, Function.update_eq_self]
  have hview : view ⟨tree, s.seen⟩ = Function.update (view s) t v := view_update hsame hpc hfavorite
  refine ⟨fun u => ?_, ?_, fun j hj hpos => ?_, fun hn k => ?_⟩
  · rw [hview]
    by_cases hu : u = t
    · rw [hu, Function.update_self]
      exact hok
    · rw [Function.update_of_ne hu]
      exact h.threads u
  · have htotal : total (fun v => v.seen.toNat) (Function.update (view s) t v) =
        total (fun v => v.seen.toNat) (view s) := total_update_of_eq (congrArg Bool.toNat hseen)
    rw [hview, htotal]
    exact hcalled.trans h.called_eq
  · have hmove := total_update (pendingFrom j) (view s) t v
    have hstart := hroom j
    have hold := h.room j hj hpos
    rw [hview]
    show tree.account.starts.countP (j ≤ ·) + _ ≤ _
    omega
  · have hmove := total_update (holding k) (view s) t v
    have hplace := hheld hn k
    have hold := h.held hn k
    rw [hview]
    omega

/-! ## One step -/

omit [DecidableEq ι] in
theorem seen_le (s : State ι) : total (fun v => v.seen.toNat) (view s) ≤ Fintype.card ι := by
  rw [total, Fintype.card, Finset.card_eq_sum_ones]
  exact Finset.sum_le_sum fun t _ => Bool.toNat_le _

/-- A thread that calls has room among the threads. -/
theorem called_lt (h : Hints n taken s) (hseen : s.seen t = false) :
    s.tree.account.called + 1 ≤ Fintype.card ι := by
  have hview : view ⟨s.tree, Function.update s.seen t true⟩ =
      Function.update (view s) t ⟨true, s.tree.pc t, s.tree.favorite t⟩ :=
    view_update rfl (Function.update_eq_self t _).symm (Function.update_eq_self t _).symm
  have hadd : true.toNat = (view s t).seen.toNat + 1 := by
    rw [view, hseen]
    rfl
  have hle := seen_le ⟨s.tree, Function.update s.seen t true⟩
  rwa [hview, total_update_of_add (f := fun v : View => v.seen.toNat) hadd, ← h.called_eq] at hle

theorem hints_call (h : Hints n taken s) (hpc : s.tree.pc t = .idle) (hseen : s.seen t = false) :
    Hints n taken ⟨s.tree.call t 1, Function.update s.seen t true⟩ := by
  have hcall : s.tree.call t 1 = { s.tree.setPc t (.ready 1 s.tree.phase) with
      account := s.tree.account.call 1 } := if_pos Nat.one_pos
  have hview : view ⟨s.tree.call t 1, Function.update s.seen t true⟩ =
      Function.update (view s) t ⟨true, .ready 1 s.tree.phase, s.tree.favorite t⟩ := by
    rw [hcall]
    exact view_update rfl rfl (Function.update_eq_self t _).symm
  have hpending : (view s t).pending = true := by
    rw [pending, view, hpc, hseen]
    rfl
  have hnew : (View.mk true (.ready 1 s.tree.phase) (s.tree.favorite t)).pending = true := rfl
  refine ⟨fun u => ?_, ?_, fun j hj hpos => ?_, fun hn k => ?_⟩
  · rw [hview]
    by_cases hu : u = t
    · rw [hu, Function.update_self]
      exact ⟨fun hfalse => Bool.noConfusion hfalse, rfl⟩
    · rw [Function.update_of_ne hu]
      exact h.threads u
  · have hadd : true.toNat = (view s t).seen.toNat + 1 := by
      rw [view, hseen]
      rfl
    rw [hview, total_update_of_add (f := fun v : View => v.seen.toNat) hadd, ← h.called_eq, hcall]
    rfl
  · have hsame : pendingFrom j ⟨true, .ready 1 s.tree.phase, s.tree.favorite t⟩ =
        pendingFrom j (view s t) := by
      rw [pendingFrom, pendingFrom, hpending, hnew]
      rfl
    rw [hview, total_update_of_eq hsame, hcall]
    exact h.room j hj hpos
  · have hsame : holding k ⟨true, .ready 1 s.tree.phase, s.tree.favorite t⟩ =
        holding k (view s t) := by
      rw [holding_of_not (not_settled_of_pending hnew),
        holding_of_not (not_settled_of_pending hpending)]
    rw [hview, total_update_of_eq hsame]
    exact h.held hn k

omit [Fintype ι] [DecidableEq ι] in
theorem startIndex_le (n favorite : ℕ) : startIndex n favorite ≤ favorite := by
  rw [startIndex]
  split_ifs
  · exact Nat.zero_le favorite
  · exact le_rfl

omit [DecidableEq ι] in
/-- The hint of an arrival that begins was counted before. -/
theorem hintsFit_of_hints (h : Hints n taken s) {oldPhase : Phase}
    (hpc : s.tree.pc t = .ready (update + 1) oldPhase) : HintsFit n s.tree (.begin t) := by
  intro j hj hpos
  have hroom := h.room j hj hpos
  have hthread := le_total (pendingFrom j) (view s) t
  have hpending : (view s t).pending = true := by
    rw [pending, view, hpc]
  have hle := startIndex_le n (s.tree.favorite t)
  rw [pendingFrom, hpending] at hthread
  simp only [view, true_and] at hthread
  rw [countP_begin]
  split_ifs at hthread ⊢ <;> omega

theorem hints_begin (hn : 0 < n) (hinv : Tree.Inv n taken s.tree) (h : Hints n taken s)
    {oldPhase : Phase} (hpc : s.tree.pc t = .ready (update + 1) oldPhase) :
    Hints n taken ⟨s.tree.begin n t update oldPhase, s.seen⟩ := by
  have hlocal := hinv.threads t
  rw [hpc] at hlocal
  obtain ⟨-, rfl⟩ := hlocal
  have hok := h.threads t
  have hupdate : update = 0 := by
    have hpoint := hok.2
    simp only [view, hpc] at hpoint
    exact Nat.succ.inj hpoint
  subst hupdate
  have hseen : s.seen t = true := by
    refine seen_of_busy hok ?_
    simp only [view, hpc]
    exact Pc.noConfusion
  have hpending : (view s t).pending = true := by
    rw [pending, view, hpc]
  have hfit := hintsFit_of_hints h hpc
  have hle := startIndex_le n (s.tree.favorite t)
  have hroom (j : ℕ) : (startIndex n (s.tree.favorite t) :: s.tree.account.starts).countP (j ≤ ·) ≤
      s.tree.account.starts.countP (j ≤ ·) + pendingFrom j (view s t) := by
    rw [countP_begin, pendingFrom, hpending]
    simp only [view, true_and]
    split_ifs <;> omega
  rcases Nat.eq_or_lt_of_le (Nat.succ_le_of_lt hn) with rfl | hseveral
  · have henter : Climb.enter ⟨s.tree.phase, 0, s.tree.favorite t, 1, 1 / 2⟩ = .returns true := by
      rw [enter_eq (Nat.zero_le 63), if_pos rfl]
    rw [Tree.State.begin, henter]
    refine h.move (t := t) ⟨true, .completion 0 s.tree.phase, s.tree.favorite t⟩ hseen.symm rfl
      (Function.update_eq_self t _).symm rfl ⟨fun hfalse => Bool.noConfusion hfalse, rfl⟩ hroom
      fun hone => absurd hone (lt_irrefl _)
  · have hslot := slot_of_hints hseveral (startIndex_lt hn (s.tree.favorite t)) hfit
    rw [Tree.State.begin, enter_first hslot]
    generalize startIndex n (s.tree.favorite t) = first at hroom
    have hcurrent : (standing n s.tree.phase 0 first).current = first := by
      rw [standing, pow_zero, Nat.mul_one]
    have hsearching : (View.mk true (.attempt 0 (standing n s.tree.phase 0 first))
        first).searching = true := rfl
    refine h.move (t := t) ⟨true, .attempt 0 (standing n s.tree.phase 0 first), first⟩ hseen.symm
      rfl ?_ rfl ⟨fun hfalse => Bool.noConfusion hfalse, rfl, fun _ => hcurrent.symm⟩ hroom
      fun _ k => ?_
    · simp only [Tree.State.follow, Tree.State.setPc, hcurrent]
      rfl
    · rw [holding_of_not (not_settled_of_searching hsearching),
        holding_of_not (not_settled_of_pending hpending)]

omit [DecidableEq ι] in
/-- The view of a thread at a slot. -/
theorem climbing_view (h : Hints n taken s) {phase : Phase}
    (hclimb : (s.tree.pc t).climb = some (standing n phase r k)) :
    unbegun (s.tree.pc t) = 0 ∧ s.seen t = true ∧ (view s t).pending = false ∧
      (view s t).searching = decide (r = 0) ∧ (r = 0 → s.tree.favorite t = k) := by
  have hok := h.threads t
  have hview : (view s t).pc.climb = some (standing n phase r k) := hclimb
  obtain ⟨hunbegun, hfavorite⟩ := unbegun_of_climb hok hview
  refine ⟨hunbegun, ?_, not_pending_of_climb hok hview, ?_, ?_⟩
  · refine seen_of_busy hok fun hidle => ?_
    rw [hidle] at hview
    cases hview
  · rw [searching, hview]
    rfl
  · rintro rfl
    have hcurrent := hfavorite rfl
    rwa [standing, pow_zero, Nat.mul_one] at hcurrent

/-- An arrival that stays in the first round, or looks again. -/
theorem hints_stay (h : Hints n taken s) {phase : Phase}
    (hclimb : (s.tree.pc t).climb = some (standing n phase r k)) {tree : Tree.State ι} (v : View)
    (hseen : v.seen = true) (hpc : tree.pc = Function.update s.tree.pc t v.pc)
    (hfavorite : tree.favorite = Function.update s.tree.favorite t v.favorite)
    (haccount : tree.account = s.tree.account) (hok : v.Ok) (hpending : v.pending = false)
    (hsettled : v.settled = (view s t).settled)
    (hsame : v.settled = true → v.favorite = s.tree.favorite t) :
    Hints n taken ⟨tree, s.seen⟩ := by
  obtain ⟨-, hseen', hpending', -, -⟩ := climbing_view h hclimb
  refine h.move (t := t) v (hseen.trans hseen'.symm) hpc hfavorite (by rw [haccount]) hok
    (fun j => ?_) fun _ k' => ?_
  · rw [haccount, pendingFrom_of_not hpending, pendingFrom_of_not hpending']
  · cases hv : v.settled with
    | false => rw [holding_of_not hv, holding_of_not (hsettled.symm.trans hv)]
    | true =>
      rw [holding_of_settled hv, holding_of_settled (hsettled.symm.trans hv), hsame hv]
      rfl

theorem hints_look (h : Hints n taken s)
    (hpc : s.tree.pc t = .attempt update (standing n s.tree.phase r k)) :
    Hints n taken ⟨s.tree.setPc t (.second update (standing n s.tree.phase r k)), s.seen⟩ := by
  have hclimb : (s.tree.pc t).climb = some (standing n s.tree.phase r k) := by
    rw [hpc]
    rfl
  obtain ⟨-, hseen, hpending, -, -⟩ := climbing_view h hclimb
  have hpoint := (h.threads t).2
  simp only [view, hpc] at hpoint
  have hnew : (View.mk true (.second update (standing n s.tree.phase r k))
      (s.tree.favorite t)).pending = false := rfl
  refine hints_stay h hclimb ⟨true, .second update (standing n s.tree.phase r k), s.tree.favorite t⟩
    rfl rfl (Function.update_eq_self t _).symm rfl ⟨fun hfalse => Bool.noConfusion hfalse, hpoint⟩
    hnew ?_ fun _ => rfl
  rw [settled, settled, hnew, hpending, searching, searching, view, hpc]
  rfl

theorem hints_pass (hinv : Tree.Inv n taken s.tree) (h : Hints n taken s)
    (hclimb : (s.tree.pc t).climb = some (standing n s.tree.phase r k)) (hslot : Slot n r k)
    (hfull : taken r k = capacity n r k) : Hints n taken ⟨s.tree.pass n t 0 r k, s.seen⟩ := by
  obtain rfl := round_zero_of_full hinv hclimb hslot hfull
  have hslot' := slot_after_full hinv hclimb hslot hfull
  obtain ⟨-, -, -, hsearching, -⟩ := climbing_view h hclimb
  have hcurrent : (standing n s.tree.phase 0 (k + 1)).current = k + 1 := by
    rw [standing, pow_zero, Nat.mul_one]
  have hnew : (View.mk true (.attempt 0 (standing n s.tree.phase 0 (k + 1))) (k + 1)).settled =
      false := rfl
  rw [Tree.State.pass, advance_first hslot']
  refine hints_stay h hclimb ⟨true, .attempt 0 (standing n s.tree.phase 0 (k + 1)), k + 1⟩ rfl rfl
    ?_ rfl ⟨fun hfalse => Bool.noConfusion hfalse, rfl, fun _ => hcurrent.symm⟩ rfl ?_
    fun hsettled => absurd (hnew.symm.trans hsettled) Bool.false_ne_true
  · simp only [Tree.State.follow, Tree.State.setPc, hcurrent]
    rfl
  · rw [hnew, not_settled_of_searching hsearching]

/-- An arrival that takes a place and comes to a point of a later round, or to its
end. -/
theorem hints_place (h : Hints n taken s)
    (hclimb : (s.tree.pc t).climb = some (standing n s.tree.phase r k)) {tree : Tree.State ι}
    {pc : Pc} (hpc : tree.pc = Function.update s.tree.pc t pc)
    (hfavorite : tree.favorite = s.tree.favorite)
    (hcalled : tree.account.called = s.tree.account.called)
    (hstarts : tree.account.starts = s.tree.account.starts)
    (hok : ∀ favorite, (View.mk true pc favorite).Ok)
    (hsettled : ∀ favorite, (View.mk true pc favorite).settled = true) :
    Hints n (placeIn taken r k) ⟨tree, s.seen⟩ := by
  obtain ⟨-, hseen, hpending, hsearching, hhint⟩ := climbing_view h hclimb
  have hnew := hsettled (s.tree.favorite t)
  have hpending' : (View.mk true pc (s.tree.favorite t)).pending = false := by
    rw [settled, Bool.and_eq_true, Bool.not_eq_true', Bool.not_eq_true'] at hnew
    exact hnew.1
  refine h.move (t := t) ⟨true, pc, s.tree.favorite t⟩ hseen.symm hpc ?_ hcalled (hok _)
    (fun j => ?_) fun _ k' => ?_
  · rw [hfavorite, Function.update_eq_self]
  · rw [hstarts, pendingFrom_of_not hpending', pendingFrom_of_not hpending]
  · rw [holding_of_settled hnew, placeIn]
    cases r with
    | zero =>
      have hold : (view s t).settled = false := not_settled_of_searching hsearching
      rw [holding_of_not hold, hhint rfl]
      simp only [true_and, eq_comm (a := k')]
      omega
    | succ r =>
      have hold : (view s t).settled = true := settled_of_not hpending hsearching
      have hother : ¬ (0 = r + 1 ∧ k' = k) := fun heq => Nat.succ_ne_zero r heq.1.symm
      rw [holding_of_settled hold, if_neg hother]
      rfl

theorem hints_take (hle : n ≤ 2 ^ 32) (h : Hints n taken s)
    (hclimb : (s.tree.pc t).climb = some (standing n s.tree.phase r k)) (hslot : Slot n r k) :
    Hints n (placeIn taken r k) ⟨s.tree.take n t 0 r k (taken r k), s.seen⟩ := by
  rw [Tree.State.take]
  split_ifs with hlast
  · rw [hslot.next hle]
    split_ifs with hroot
    · exact hints_place h hclimb rfl rfl rfl rfl
        (fun _ => ⟨fun hfalse => Bool.noConfusion hfalse, rfl⟩) fun _ => rfl
    · exact hints_place h hclimb rfl rfl rfl rfl
        (fun _ => ⟨fun hfalse => Bool.noConfusion hfalse, rfl,
          fun hzero => absurd hzero (Nat.succ_ne_zero r)⟩) fun _ => rfl
  · exact hints_place h hclimb rfl rfl rfl rfl
      (fun _ => ⟨fun hfalse => Bool.noConfusion hfalse, True.intro⟩) fun _ => rfl

/-! ## The next phase -/

/-- Among those with a hint below `j`. -/
def below (j : ℕ) (v : View) : ℕ := if v.favorite < j then 1 else 0

omit [DecidableEq ι] in
/-- As many hints are below a node as there are places before it. -/
theorem total_below (hheld : ∀ k, total (fun v => if v.favorite = k then 1 else 0) (view s) =
    capacity n 0 k) (j : ℕ) : total (below j) (view s) = min (2 * j) n := by
  induction j with
  | zero =>
    have hnone : total (below 0) (view s) = 0 :=
      total_const_zero _ _ fun t => if_neg (Nat.not_lt_zero _)
    rw [hnone]
    omega
  | succ j ih =>
    have hsplit : total (below (j + 1)) (view s) =
        total (below j) (view s) + total (fun v => if v.favorite = j then 1 else 0) (view s) := by
      rw [total, total, total, ← Finset.sum_add_distrib]
      refine Finset.sum_congr rfl fun t _ => ?_
      rw [below, below]
      split_ifs <;> omega
    rw [hsplit, ih, hheld, capacity, width_zero]
    omega

omit [DecidableEq ι] in
/-- When the last round is won, the hints are the places of the first round. -/
theorem hints_of_trues (hcard : n = Fintype.card ι) (hn : 1 < n) (hinv : Tree.Inv n taken s.tree)
    (h : Hints n taken s) (htrues : 0 < s.tree.account.trues) (k : ℕ) :
    total (fun v => if v.favorite = k then 1 else 0) (view s) = capacity n 0 k := by
  have hstarts := all_started hinv (Nat.zero_lt_of_lt hn) htrues
  have hcounted := hinv.counted.called_eq
  have hcalled_le := hinv.counted.called_le
  have hcalled := h.called_eq
  -- every thread has called, and nobody is to begin or in the first round
  have hall (t : ι) : (view s t).seen = true := by
    have hseen : total (fun v => v.seen.toNat) (view s) + total (fun v => (!v.seen).toNat) (view s) =
        Fintype.card ι := by
      rw [total, total, ← Finset.sum_add_distrib, Fintype.card, Finset.card_eq_sum_ones]
      refine Finset.sum_congr rfl fun t _ => ?_
      cases (view s t).seen <;> rfl
    have hthread := le_total (fun v => (!v.seen).toNat) (view s) t
    cases hv : (view s t).seen with
    | true => rfl
    | false =>
      rw [hv] at hthread
      simp only [Bool.not_false, Bool.toNat_true] at hthread
      omega
  have hsettled (t : ι) : (view s t).settled = true := by
    have hunbegun := le_total unbegun s.tree.pc t
    apply settled_of_not
    · rw [pending, hall t]
      cases hpc : (view s t).pc with
      | ready update oldPhase =>
        have hpoint := (h.threads t).2
        rw [hpc] at hpoint
        have hready : s.tree.pc t = .ready update oldPhase := hpc
        rw [hready, unbegun] at hunbegun
        omega
      | idle | attempt _ _ | second _ _ | completion _ _ => rfl
    · have hnone : (view s t).pc.climb = none := none_climbing hinv htrues t
      rw [searching, hnone]
  have hplaces : taken 0 k = capacity n 0 k := by
    by_cases hk : k < width n 1
    · exact full_of_trues hinv htrues ⟨hn, hk⟩
    · have hzero := capacity_eq_zero (not_lt.mp hk)
      have hcapacity := hinv.climbs.le_capacity 0 k
      omega
  rw [← hplaces, ← h.held hn k]
  exact Finset.sum_congr rfl fun t _ => (holding_of_settled (hsettled t) k).symm

theorem hints_complete (hcard : n = Fintype.card ι) (hn : 0 < n) (hinv : Tree.Inv n taken s.tree)
    (h : Hints n taken s) {oldPhase : Phase} (hpc : s.tree.pc t = .completion update oldPhase)
    (hidle : ∀ u, (s.tree.complete t update oldPhase).pc u = .idle) :
    Hints n (fun _ _ => 0) ⟨s.tree.complete t update oldPhase, fun _ => false⟩ := by
  refine hints_fresh (fun _ => rfl) hidle rfl fun j hj hpos => ?_
  have hseveral : 1 < n := by omega
  have htrues : 0 < s.tree.account.trues := by
    have hwinning := le_total winning s.tree.pc t
    rw [hpc, ← hinv.counted.trues_eq] at hwinning
    exact hwinning
  have hbelow := total_below (hints_of_trues hcard hseveral hinv h htrues) j
  have hsplit : total (below j) (view s) +
      total (fun v => if j ≤ v.favorite then 1 else 0) (view s) = Fintype.card ι := by
    rw [total, total, ← Finset.sum_add_distrib, Fintype.card, Finset.card_eq_sum_ones]
    refine Finset.sum_congr rfl fun t _ => ?_
    rw [below]
    split_ifs <;> omega
  show total (fun v => if j ≤ v.favorite then 1 else 0) (view s) ≤ n - 2 * j
  omega

/-! ## Runs -/

theorem inv_attempt (hle : n ≤ 2 ^ 32) (hinv : Tree.Inv n taken s.tree) (h : Hints n taken s)
    {c : Climb} (hpc : s.tree.pc t = .attempt update c) :
    ∃ taken', Tree.Inv n taken'
      (if c.InRange n then s.tree.attempt t update c else s.tree.fail) ∧
      Hints n taken' ⟨if c.InRange n then s.tree.attempt t update c else s.tree.fail, s.seen⟩ := by
  have hlocal := hinv.threads t
  rw [hpc] at hlocal
  obtain ⟨r, k, hslot, rfl⟩ := hlocal
  have hclimb : (s.tree.pc t).climb = some (standing n s.tree.phase r k) := by
    rw [hpc]
    rfl
  have hunbegun := (climbing_view h hclimb).1
  obtain rfl : update = 0 := by rwa [hpc] at hunbegun
  have hcapacity := hinv.climbs.le_capacity r k
  rw [if_pos (hslot.inRange hle), attempt_eq hslot hcapacity (hinv.tickets r k hslot)]
  split_ifs with hfull hnone
  · exact ⟨taken, inv_pass hinv hclimb hslot hunbegun hfull, hints_pass hinv h hclimb hslot hfull⟩
  · have hroom := lt_of_le_of_ne hcapacity hfull
    exact ⟨_, inv_take hle hinv hclimb hslot hunbegun hroom, hints_take hle h hclimb hslot⟩
  · exact ⟨taken, inv_look hinv hpc hslot (Nat.pos_of_ne_zero hnone), hints_look h hpc⟩

theorem inv_second (hle : n ≤ 2 ^ 32) (hinv : Tree.Inv n taken s.tree) (h : Hints n taken s)
    {c : Climb} (hpc : s.tree.pc t = .second update c) :
    ∃ taken', Tree.Inv n taken'
      (if c.InRange n then s.tree.second t update c else s.tree.fail) ∧
      Hints n taken' ⟨if c.InRange n then s.tree.second t update c else s.tree.fail, s.seen⟩ := by
  have hlocal := hinv.threads t
  rw [hpc] at hlocal
  obtain ⟨r, k, hslot, rfl, hpos⟩ := hlocal
  have hclimb : (s.tree.pc t).climb = some (standing n s.tree.phase r k) := by
    rw [hpc]
    rfl
  have hunbegun := (climbing_view h hclimb).1
  obtain rfl : update = 0 := by rwa [hpc] at hunbegun
  have hcapacity := hinv.climbs.le_capacity r k
  rw [if_pos (hslot.inRange hle), second_eq hpos hcapacity (hinv.tickets r k hslot)]
  split_ifs with hfull
  · exact ⟨taken, inv_pass hinv hclimb hslot hunbegun hfull, hints_pass hinv h hclimb hslot hfull⟩
  · have hroom := lt_of_le_of_ne hcapacity hfull
    exact ⟨_, inv_take hle hinv hclimb hslot hunbegun hroom, hints_take hle h hclimb hslot⟩

theorem regular_step (hcard : n = Fintype.card ι) (hn : 0 < n) (hle : n ≤ 2 ^ 32)
    (hinv : Tree.Inv n taken s.tree) (h : Hints n taken s) {s' : State ι} {l : Label ι}
    (hregular : Regular s l) (hstep : step n s l = some s') :
    ∃ taken', Tree.Inv n taken' s'.tree ∧ Hints n taken' s' := by
  rw [step, Option.map_eq_some_iff] at hstep
  obtain ⟨tree, htree, rfl⟩ := hstep
  rw [Tree.step, hinv.unfailed] at htree
  have hact : Tree.act n s.tree l = some tree := htree
  cases l with
  | favor t node => exact hregular.elim
  | call t update =>
    obtain ⟨rfl, hseen⟩ := hregular
    rw [Tree.act] at hact
    split at hact
    · rename_i hpc
      obtain rfl := Option.some.inj hact
      have hquota : s.tree.account.called + 1 ≤ n := hcard ▸ called_lt h hseen
      exact ⟨taken, inv_call hinv hpc Nat.one_pos hquota, hints_call h hpc hseen⟩
    · cases hact
  | begin t =>
    rw [Tree.act] at hact
    split at hact
    · rename_i update oldPhase hpc
      obtain rfl := Option.some.inj hact
      exact ⟨taken, inv_begin hn hinv hpc (hintsFit_of_hints h hpc), hints_begin hn hinv h hpc⟩
    · cases hact
  | exchange t =>
    rw [Tree.act] at hact
    split at hact
    · rename_i update c hpc
      obtain rfl := Option.some.inj hact
      exact inv_attempt hle hinv h hpc
    · rename_i update c hpc
      obtain rfl := Option.some.inj hact
      exact inv_second hle hinv h hpc
    · cases hact
  | complete t =>
    rw [Tree.act] at hact
    split at hact
    · rename_i update oldPhase hpc
      obtain rfl := Option.some.inj hact
      have hnext := inv_complete hn hinv hpc
      exact ⟨_, hnext, hints_complete hcard hn hinv h hpc (fun u => idle_of_fresh hnext rfl u)⟩
    · cases hact

/-- A tree barrier that expects one arrival of each of its threads in each phase
is as it should be in every state, with no condition on the hints. -/
theorem tree_regular_safe (ι : Type) [Fintype ι] [DecidableEq ι] (hn : 0 < Fintype.card ι)
    (hle : Fintype.card ι ≤ 2 ^ 32) (s : State ι)
    (h : (system ι (Fintype.card ι)).Reachable Regular s) : Safe (Fintype.card ι) s.tree := by
  obtain ⟨taken, hinv, -⟩ := h.invariant
    (P := fun s => ∃ taken, Tree.Inv (Fintype.card ι) taken s.tree ∧
      Hints (Fintype.card ι) taken s) (by
    rintro s rfl
    exact ⟨_, inv_start _, hints_start⟩) (by
    rintro s l s' ⟨taken, hinv, hhints⟩ hregular hstep
    exact regular_step rfl hn hle hinv hhints hregular hstep)
  exact hinv.safe hn hle

/-- Three threads in their second phase: the first two come back to node 0, the
third to node 1. -/
theorem tree_regular_safe_three : ∃ s : State (Fin 3),
    (system (Fin 3) 3).exec Regular (start (Fin 3))
      [.call 0 1, .call 1 1, .call 2 1, .begin 0, .begin 1, .begin 2, .exchange 0, .exchange 1,
        .exchange 1, .exchange 2, .exchange 2, .exchange 2, .exchange 1, .exchange 1, .complete 1,
        .call 2 1, .begin 2] = some s ∧
    s.tree.finished.length = 1 ∧ s.tree.account.starts = [1] ∧ Safe 3 s.tree := by
  have hrun : ((system (Fin 3) 3).exec Regular (start (Fin 3))
      [.call 0 1, .call 1 1, .call 2 1, .begin 0, .begin 1, .begin 2, .exchange 0, .exchange 1,
        .exchange 1, .exchange 2, .exchange 2, .exchange 2, .exchange 1, .exchange 1, .complete 1,
        .call 2 1, .begin 2]).map
        (fun s => (s.tree.finished.length, s.tree.account.starts)) = some (1, [1]) := by
    decide
  obtain ⟨s, hs, heq⟩ := Option.map_eq_some_iff.mp hrun
  have hsafe : Safe (Fintype.card (Fin 3)) s.tree :=
    tree_regular_safe (Fin 3) (by decide) (by decide) s (System.reachable_of_exec rfl hs)
  exact ⟨s, hs, congrArg Prod.fst heq, congrArg Prod.snd heq, hsafe⟩

end Libhipcxx.Barrier.TreeHints
