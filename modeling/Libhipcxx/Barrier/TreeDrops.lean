import Libhipcxx.Barrier.TreeExact

/-!
# The tree barrier with drops and waits

`arrive_and_drop` takes one off the adjustment and arrives.  The thread that gets
through the last round runs the completion function, adds the adjustment to the
expected count, clears it, and stores the next phase.  A wait polls the phase.

The arrivals themselves are those of the tree, in a vector whose size is that of
the first expected count.  An arrival of a negative count is a failure.  The
number of the phase, its quota, the arrivals asked for, the drops announced, and
the thread past its completion function are not read by the code.
-/

namespace Libhipcxx.Barrier.TreeDrops

open Transition Threads Barrier.Tree

/-- Where a thread is beside its arrivals at the tree. -/
inductive Stage where
  | tree
  | dropped
  | adjusted
  | cleared
  | waiting (token : Phase) (phaseNo : ℕ)
  deriving DecidableEq

/-- The token of phase number `k`. -/
def tokenOf (k : ℕ) : Phase := BitVec.ofNat 8 (2 * k)

structure State (ι : Type) where
  tree : Tree.State ι
  expected : ℤ
  adjustment : ℤ
  stage : ι → Stage
  completions : ℕ
  phaseNo : ℕ
  quota : ℕ
  issued : ℕ
  drops : ℕ
  closing : Option ι
  finished : List (ℕ × Account)

/-- A wait is made with the token of some phase.  A step is the next access of a
thread in a call. -/
inductive Label (ι : Type) where
  | favor (t : ι) (node : ℕ)
  | arrive (t : ι) (update : ℕ)
  | arriveAndDrop (t : ι)
  | wait (t : ι) (phaseNo : ℕ)
  | step (t : ι)

variable {ι : Type} [DecidableEq ι]

namespace State

/-- The thread is in no call. -/
def Idle {ι : Type} (s : State ι) (t : ι) : Prop := s.stage t = .tree ∧ s.tree.pc t = .idle

instance {ι : Type} (s : State ι) (t : ι) : Decidable (s.Idle t) :=
  inferInstanceAs (Decidable (_ ∧ _))

def setStage (s : State ι) (t : ι) (stage : Stage) : State ι :=
  { s with stage := Function.update s.stage t stage }

def setTree {ι : Type} (s : State ι) (tree : Tree.State ι) : State ι := { s with tree := tree }

def favor (s : State ι) (t : ι) (node : ℕ) : State ι :=
  s.setTree { s.tree with favorite := Function.update s.tree.favorite t node }

/-- The load of the phase in `arrive`. -/
def arrive (s : State ι) (t : ι) (update : ℕ) : State ι :=
  { s with
    tree := s.tree.call t update
    issued := s.issued + update }

/-- `__expected_adjustment.fetch_sub(1)`. -/
def drop (s : State ι) (t : ι) : State ι :=
  { s.setStage t .dropped with
    adjustment := s.adjustment - 1
    issued := s.issued + 1
    drops := s.drops + 1 }

/-- The load of the phase in the `arrive` of `arrive_and_drop`. -/
def arriveDropped (s : State ι) (t : ι) : State ι :=
  { s.setStage t .tree with tree := s.tree.call t 1 }

def begin (s : State ι) (t : ι) (update : ℕ) (oldPhase : Phase) : State ι :=
  s.setTree (if 0 ≤ s.expected then s.tree.begin s.expected.toNat t update oldPhase
    else s.tree.fail)

/-- `__completion()` and `__expected += __expected_adjustment.load()`. -/
def adjust (s : State ι) (t : ι) : State ι :=
  { s.setStage t .adjusted with
    expected := s.expected + s.adjustment
    completions := s.completions + 1
    closing := some t }

/-- `__expected_adjustment.store(0)`. -/
def clear (s : State ι) (t : ι) : State ι := { s.setStage t .cleared with adjustment := 0 }

/-- `__phase.store(__old_phase + 2)`. -/
def storePhase (s : State ι) (t : ι) (update : ℕ) (oldPhase : Phase) : State ι :=
  { s.setStage t .tree with
    tree := { s.tree.complete t update oldPhase with finished := [] }
    phaseNo := s.phaseNo + 1
    quota := s.quota - s.drops
    issued := 0
    drops := 0
    closing := none
    finished := (s.quota, s.tree.account) :: s.finished }

/-- One poll of a wait. -/
def poll (s : State ι) (t : ι) (token : Phase) : State ι :=
  if s.tree.phase ≠ token then s.setStage t .tree else s

end State

/-- The next access of an arrival at the tree, in a vector for `size` arrivals. -/
def climb (size : ℕ) (s : State ι) (t : ι) : Option (State ι) :=
  match s.tree.pc t with
  | .ready (update + 1) oldPhase => some (s.begin t update oldPhase)
  | .attempt update c =>
      some (s.setTree (if c.InRange size then s.tree.attempt t update c else s.tree.fail))
  | .second update c =>
      some (s.setTree (if c.InRange size then s.tree.second t update c else s.tree.fail))
  | .completion _ _ => some (s.adjust t)
  | _ => none

def act (size : ℕ) (s : State ι) : Label ι → Option (State ι)
  | .favor t node => if s.Idle t then some (s.favor t node) else none
  | .arrive t update => if s.Idle t then some (s.arrive t update) else none
  | .arriveAndDrop t => if s.Idle t then some (s.drop t) else none
  | .wait t k => if s.Idle t then some (s.setStage t (.waiting (tokenOf k) k)) else none
  | .step t =>
      match s.stage t with
      | .tree => climb size s t
      | .dropped => some (s.arriveDropped t)
      | .adjusted => some (s.clear t)
      | .cleared =>
          match s.tree.pc t with
          | .completion update oldPhase => some (s.storePhase t update oldPhase)
          | _ => none
      | .waiting token _ => some (s.poll t token)

def step (size : ℕ) (s : State ι) (l : Label ι) : Option (State ι) :=
  if s.tree.failed then none else act size s l

def start (n : ℕ) (favorite : ι → ℕ) : State ι where
  tree := Tree.start favorite
  expected := n
  adjustment := 0
  stage _ := .tree
  completions := 0
  phaseNo := 0
  quota := n
  issued := 0
  drops := 0
  closing := none
  finished := []

/-- A barrier that is built for `n` arrivals. -/
def system (ι : Type) [DecidableEq ι] (n : ℕ) : System (State ι) (Label ι) where
  start s := ∃ favorite, s = start n favorite
  step := step n

/-- No more arrivals are asked for in a phase than it expects, and a wait is on a
phase that has begun. -/
def Contract {ι : Type} (s : State ι) : Label ι → Prop
  | .arrive _ update => 0 < update ∧ s.issued + update ≤ s.quota
  | .arriveAndDrop _ => s.issued + 1 ≤ s.quota
  | .wait _ k => k ≤ s.phaseNo
  | _ => True

instance {ι : Type} (s : State ι) : (l : Label ι) → Decidable (Contract s l)
  | .arrive _ _ => inferInstanceAs (Decidable (_ ∧ _))
  | .arriveAndDrop _ | .wait _ _ => inferInstanceAs (Decidable (_ ≤ _))
  | .favor _ _ | .step _ => inferInstanceAs (Decidable True)

/-- The hints leave room for the arrival that begins at this point. -/
def StartFits (n : ℕ) (s : Tree.State ι) (t : ι) : Pc → Prop
  | .ready (_ + 1) _ => Tree.HintsFit n s (.begin t)
  | _ => True

instance (n : ℕ) (s : Tree.State ι) (t : ι) : (pc : Pc) → Decidable (StartFits n s t pc)
  | .ready (_ + 1) _ => inferInstanceAs (Decidable (Tree.HintsFit n s (.begin t)))
  | .idle | .ready 0 _ | .attempt _ _ | .second _ _ | .completion _ _ =>
      inferInstanceAs (Decidable True)

/-- Where an arrival begins, the hints leave room for it among the arrivals that
the phase expects. -/
def HintsFit (s : State ι) : Label ι → Prop
  | .step t => StartFits s.quota s.tree t (s.tree.pc t)
  | _ => True

instance (s : State ι) : (l : Label ι) → Decidable (HintsFit s l)
  | .step t => inferInstanceAs (Decidable (StartFits s.quota s.tree t (s.tree.pc t)))
  | .favor _ _ | .arrive _ _ | .arriveAndDrop _ | .wait _ _ => inferInstanceAs (Decidable True)

/-- What a step of each kind does. -/
theorem step_cases {size : ℕ} {s s' : State ι} {l : Label ι} (h : step size s l = some s') :
    (∃ t node, l = .favor t node ∧ s.Idle t ∧ s' = s.favor t node) ∨
    (∃ t update, l = .arrive t update ∧ s.Idle t ∧ s' = s.arrive t update) ∨
    (∃ t, l = .arriveAndDrop t ∧ s.Idle t ∧ s' = s.drop t) ∨
    (∃ t k, l = .wait t k ∧ s.Idle t ∧ s' = s.setStage t (.waiting (tokenOf k) k)) ∨
    (∃ t, l = .step t ∧ s.stage t = .tree ∧ climb size s t = some s') ∨
    (∃ t, l = .step t ∧ s.stage t = .dropped ∧ s' = s.arriveDropped t) ∨
    (∃ t, l = .step t ∧ s.stage t = .adjusted ∧ s' = s.clear t) ∨
    (∃ t update oldPhase, l = .step t ∧ s.stage t = .cleared ∧
      s.tree.pc t = .completion update oldPhase ∧ s' = s.storePhase t update oldPhase) ∨
    (∃ t token k, l = .step t ∧ s.stage t = .waiting token k ∧ s' = s.poll t token) := by
  rw [step] at h
  split at h
  · cases h
  · cases l with
    | favor t node =>
      rw [act] at h
      split_ifs at h with hidle
      exact Or.inl ⟨t, node, rfl, hidle, (Option.some.inj h).symm⟩
    | arrive t update =>
      rw [act] at h
      split_ifs at h with hidle
      exact Or.inr (Or.inl ⟨t, update, rfl, hidle, (Option.some.inj h).symm⟩)
    | arriveAndDrop t =>
      rw [act] at h
      split_ifs at h with hidle
      exact Or.inr (Or.inr (Or.inl ⟨t, rfl, hidle, (Option.some.inj h).symm⟩))
    | wait t k =>
      rw [act] at h
      split_ifs at h with hidle
      exact Or.inr (Or.inr (Or.inr (Or.inl ⟨t, k, rfl, hidle, (Option.some.inj h).symm⟩)))
    | step t =>
      rw [act] at h
      iterate 4 right
      split at h
      · rename_i hstage
        exact Or.inl ⟨t, rfl, hstage, h⟩
      · rename_i hstage
        exact Or.inr (Or.inl ⟨t, rfl, hstage, (Option.some.inj h).symm⟩)
      · rename_i hstage
        exact Or.inr (Or.inr (Or.inl ⟨t, rfl, hstage, (Option.some.inj h).symm⟩))
      · rename_i hstage
        split at h
        · rename_i update oldPhase hpc
          exact Or.inr (Or.inr (Or.inr (Or.inl
            ⟨t, update, oldPhase, rfl, hstage, hpc, (Option.some.inj h).symm⟩)))
        · cases h
      · rename_i token k hstage
        exact Or.inr (Or.inr (Or.inr (Or.inr
          ⟨t, token, k, rfl, hstage, (Option.some.inj h).symm⟩)))

/-- What the next access of an arrival is. -/
theorem climb_cases {size : ℕ} {s s' : State ι} {t : ι} (h : climb size s t = some s') :
    (∃ update oldPhase, s.tree.pc t = .ready (update + 1) oldPhase ∧
      s' = s.begin t update oldPhase) ∨
    (∃ update c, s.tree.pc t = .attempt update c ∧
      s' = s.setTree (if c.InRange size then s.tree.attempt t update c else s.tree.fail)) ∨
    (∃ update c, s.tree.pc t = .second update c ∧
      s' = s.setTree (if c.InRange size then s.tree.second t update c else s.tree.fail)) ∨
    (∃ update oldPhase, s.tree.pc t = .completion update oldPhase ∧ s' = s.adjust t) := by
  rw [climb] at h
  split at h
  · exact Or.inl ⟨_, _, ‹_›, (Option.some.inj h).symm⟩
  · exact Or.inr (Or.inl ⟨_, _, ‹_›, (Option.some.inj h).symm⟩)
  · exact Or.inr (Or.inr (Or.inl ⟨_, _, ‹_›, (Option.some.inj h).symm⟩))
  · exact Or.inr (Or.inr (Or.inr ⟨_, _, ‹_›, (Option.some.inj h).symm⟩))
  · cases h

end Libhipcxx.Barrier.TreeDrops
