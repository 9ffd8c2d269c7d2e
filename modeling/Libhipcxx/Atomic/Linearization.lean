import Libhipcxx.Support.Threads
import Libhipcxx.Support.Transition
import Mathlib.Order.Defs.LinearOrder

/-!
# The loops of fetch-max and fetch-min

Any number of threads run the compare-exchange loops on one object, while
others write to it.  The host loop uses the strong compare-exchange, the device
loop the weak one, which may fail although the values agree.  The values are of
any totally ordered type.

A call leaves its loop after a successful exchange, or because the value just
observed makes the exchange unnecessary.  Either way the step before is one at
which the object held the returned value and took the greater, or the lesser, of
it and the operand.
-/

namespace Libhipcxx.Atomic.Linearization

open Transition Threads

/-- `fetch_max` and `fetch_min`. -/
inductive Extremum where
  | max
  | min
  deriving DecidableEq

/-- A call: the operation, its operand, and the kind of its compare-exchange. -/
structure Call (α : Type) where
  op : Extremum
  val : α
  weak : Bool
  deriving DecidableEq

/-- The next atomic operation of a thread. -/
inductive Point (α : Type) where
  | idle
  | load (call : Call α)
  | compareExchange (call : Call α) (expected desired : α)
  | returned (value : α)
  deriving DecidableEq

variable {α : Type} [LinearOrder α]

/-- What the operation is meant to store over `x`. -/
def Extremum.apply : Extremum → α → α → α
  | .max, x, val => Max.max x val
  | .min, x, val => Min.min x val

/-- `__desired`. -/
def Call.desired (c : Call α) (expected : α) : α :=
  match c.op with
  | .max => if expected > c.val then expected else c.val
  | .min => if expected < c.val then expected else c.val

/-- The test of the loop, up to its compare-exchange. -/
def loop (c : Call α) (expected : α) : Point α :=
  if c.desired expected = c.val then
    .compareExchange c expected (c.desired expected)
  else .returned expected

/-- The atomic operation at a point.  Only a weak compare-exchange may fail
spuriously; a failed one observes the object. -/
def next : Point α → α → Bool → Option (α × Point α)
  | .load c, object, _ => some (object, loop c object)
  | .compareExchange c expected desired, object, spurious =>
      if spurious then
        if c.weak then some (object, loop c object) else none
      else if object = expected then some (desired, .returned expected)
      else some (object, loop c object)
  | _, _, _ => none

structure State (ι α : Type) where
  object : α
  pc : ι → Point α

/-- `write` is a store, or the write of any other operation, by anyone. -/
inductive Label (ι α : Type) where
  | call (t : ι) (call : Call α)
  | step (t : ι) (spurious : Bool)
  | ret (t : ι)
  | write (value : α)
  deriving DecidableEq

variable {ι : Type} [DecidableEq ι]

def step (s : State ι α) : Label ι α → Option (State ι α)
  | .call t c =>
      if s.pc t = .idle then
        some { s with pc := Function.update s.pc t (.load c) }
      else none
  | .step t spurious =>
      (next (s.pc t) s.object spurious).map fun (object, pc) =>
        { object := object, pc := Function.update s.pc t pc }
  | .ret t =>
      match s.pc t with
      | .returned _ => some { s with pc := Function.update s.pc t .idle }
      | _ => none
  | .write value => some { s with object := value }

def system (ι α : Type) [DecidableEq ι] [LinearOrder α] :
    System (State ι α) (Label ι α) where
  start s := ∀ t, s.pc t = .idle
  step := step

/-! ## Where a call takes effect -/

theorem Call.desired_eq (c : Call α) (x : α) : c.desired x = c.op.apply x c.val := by
  cases hop : c.op with
  | max =>
      simp only [Call.desired, Extremum.apply, hop]
      split
      · rename_i hlt
        exact (max_eq_left hlt.le).symm
      · rename_i hle
        exact (max_eq_right (not_lt.mp hle)).symm
  | min =>
      simp only [Call.desired, Extremum.apply, hop]
      split
      · rename_i hlt
        exact (min_eq_left hlt.le).symm
      · rename_i hle
        exact (min_eq_right (not_lt.mp hle)).symm

/-- The new value is the old one or the operand. -/
theorem Call.desired_of_ne {c : Call α} {x : α} (h : c.desired x ≠ c.val) :
    c.desired x = x := by
  cases hop : c.op with
  | max =>
      simp only [Call.desired, hop] at h ⊢
      split at h
      · rename_i hlt
        exact if_pos hlt
      · exact absurd rfl h
  | min =>
      simp only [Call.desired, hop] at h ⊢
      split at h
      · rename_i hlt
        exact if_pos hlt
      · exact absurd rfl h

/-- A step of thread `t` at which the object held `x` and became what the
operation makes of it. -/
def TakesEffect (t : ι) (c : Call α) (x : α) (s : State ι α) (l : Label ι α)
    (s' : State ι α) : Prop :=
  (∃ spurious, l = .step t spurious) ∧ s.object = x ∧
    s'.object = c.op.apply x c.val

/-- The points of a call, with the value it observed: either the exchange is
still to come, or the call has taken effect. -/
inductive Effect (c : Call α) (object : α) : α → Point α → Prop
  | retry (expected : α) (h : c.desired expected = c.val) :
      Effect c object object (.compareExchange c expected (c.desired expected))
  | done {object' : α} (h : object' = c.op.apply object c.val) :
      Effect c object object' (.returned object)

/-- To observe the object is to leave it: if the loop ends, this is what the
operation asks for. -/
theorem effect_loop (c : Call α) (object : α) :
    Effect c object object (loop c object) := by
  rw [loop]
  split
  · rename_i h
    exact Effect.retry object h
  · rename_i h
    apply Effect.done
    rw [← c.desired_eq, c.desired_of_ne h]

/-- The point of a thread inside call `c`, before it returns. -/
inductive Inside (c : Call α) : Point α → Prop
  | load : Inside c (.load c)
  | compareExchange (expected : α) (h : c.desired expected = c.val) :
      Inside c (.compareExchange c expected (c.desired expected))

theorem Effect.inside_or {c : Call α} {object object' : α} {pc : Point α}
    (h : Effect c object object' pc) :
    Inside c pc ∨ pc = .returned object ∧ object' = c.op.apply object c.val := by
  cases h with
  | retry expected h => exact Or.inl (Inside.compareExchange expected h)
  | done h => exact Or.inr ⟨rfl, h⟩

theorem effect_of_next {c : Call α} {pc pc' : Point α} {object object' : α}
    {spurious : Bool} (hinside : Inside c pc)
    (h : next pc object spurious = some (object', pc')) :
    Effect c object object' pc' := by
  cases hinside with
  | load =>
      obtain ⟨rfl, rfl⟩ := Prod.mk.inj (Option.some.inj h)
      exact effect_loop c object
  | compareExchange expected hdesired =>
      rw [next] at h
      split at h
      · split at h
        · obtain ⟨rfl, rfl⟩ := Prod.mk.inj (Option.some.inj h)
          exact effect_loop c object
        · cases h
      · split at h
        · rename_i hequal
          obtain ⟨rfl, rfl⟩ := Prod.mk.inj (Option.some.inj h)
          rw [← hequal]
          exact Effect.done (c.desired_eq object)
        · obtain ⟨rfl, rfl⟩ := Prod.mk.inj (Option.some.inj h)
          exact effect_loop c object

/-! ## Runs -/

/-- What a step of each kind does. -/
theorem step_cases {s s' : State ι α} {l : Label ι α} (h : step s l = some s') :
    (∃ t c, l = .call t c ∧ s.pc t = .idle ∧
      s' = { s with pc := Function.update s.pc t (.load c) }) ∨
    (∃ t spurious object pc, l = .step t spurious ∧
      next (s.pc t) s.object spurious = some (object, pc) ∧
      s' = { object := object, pc := Function.update s.pc t pc }) ∨
    (∃ t, l = .ret t ∧
      s' = { s with pc := Function.update s.pc t .idle }) ∨
    (∃ value, l = .write value ∧ s' = { s with object := value }) := by
  cases l with
  | call t c =>
      rw [step] at h
      split at h
      · rename_i hidle
        exact Or.inl ⟨t, c, rfl, hidle, (Option.some.inj h).symm⟩
      · cases h
  | step t spurious =>
      obtain ⟨⟨object, pc⟩, hnext, hs'⟩ := Option.map_eq_some_iff.mp h
      exact Or.inr (Or.inl ⟨t, spurious, object, pc, rfl, hnext, hs'.symm⟩)
  | ret t =>
      rw [step] at h
      split at h
      · exact Or.inr (Or.inr (Or.inl ⟨t, rfl, (Option.some.inj h).symm⟩))
      · cases h
  | write value =>
      exact Or.inr (Or.inr (Or.inr ⟨value, rfl, (Option.some.inj h).symm⟩))

/-- Until thread `t` returns. -/
def Until (t : ι) (_s : State ι α) (l : Label ι α) : Prop := l ≠ .ret t

instance (t : ι) (s : State ι α) (l : Label ι α) : Decidable (Until t s l) :=
  inferInstanceAs (Decidable (_ ≠ _))

/-- A step while thread `t` is inside its call, or has a value to return, moves
`t` on or leaves its point alone. -/
theorem step_until {t : ι} {s s' : State ι α} {l : Label ι α}
    (hbusy : s.pc t ≠ .idle) (hcond : Until t s l) (h : step s l = some s') :
    s'.pc t = s.pc t ∨
      ∃ spurious, l = .step t spurious ∧
        next (s.pc t) s.object spurious = some (s'.object, s'.pc t) := by
  obtain ⟨t', c, -, hidle, rfl⟩ | ⟨t', spurious, object, pc, rfl, hnext, rfl⟩ |
    ⟨t', rfl, rfl⟩ | ⟨value, -, rfl⟩ := step_cases h
  · have hne : t ≠ t' := fun heq => hbusy (heq ▸ hidle)
    exact Or.inl (Function.update_of_ne hne _ _)
  · by_cases heq : t = t'
    · subst heq
      refine Or.inr ⟨spurious, rfl, ?_⟩
      have hpc : Function.update s.pc t pc t = pc := Function.update_self _ _ _
      simp only [hnext, hpc]
    · exact Or.inl (Function.update_of_ne heq _ _)
  · have hne : t ≠ t' := fun heq => hcond (by rw [heq])
    exact Or.inl (Function.update_of_ne hne _ _)
  · exact Or.inl rfl

theorem Inside.ne_idle {c : Call α} {pc : Point α} (h : Inside c pc) :
    pc ≠ .idle := by
  rintro rfl
  cases h

/-- Along a call, the thread is inside its loop, or the call has taken effect
with the value it is to return. -/
theorem inside_or_effect {t : ι} {c : Call α} {s s' : State ι α}
    {ls : List (Label ι α)} (hbegin : s.pc t = .load c)
    (hpath : (system ι α).Path (Until t) s ls s') :
    Inside c (s'.pc t) ∨ ∃ x, s'.pc t = .returned x ∧
      (system ι α).Sometime (Until t) (TakesEffect t c x) s ls s' := by
  induction hpath with
  | nil =>
      rw [hbegin]
      exact Or.inl Inside.load
  | @snoc m u ls l hpath hcond hstep ih =>
      rcases ih with hinside | ⟨x, hx, hsome⟩
      · rcases step_until hinside.ne_idle hcond hstep with
          hsame | ⟨spurious, hl, hnext⟩
        · rw [hsame]
          exact Or.inl hinside
        · rcases (effect_of_next hinside hnext).inside_or with hin | ⟨hret, hobject⟩
          · exact Or.inl hin
          · exact Or.inr ⟨m.object, hret, System.Sometime.last hpath hcond hstep
              ⟨⟨spurious, hl⟩, rfl, hobject⟩⟩
      · have hbusy : m.pc t ≠ .idle := by simp [hx]
        rcases step_until hbusy hcond hstep with hsame | ⟨spurious, -, hnext⟩
        · exact Or.inr ⟨x, hsame.trans hx, hsome.snoc hcond hstep⟩
        · rw [hx, next] at hnext
          · cases hnext
          · simp
          · simp

/-- Every completed call takes effect at one step between its beginning and its
return, with the value it returns. -/
theorem fetchExtremum_linearizable {t : ι} {c : Call α} {r s s' : State ι α}
    {ls : List (Label ι α)} {x : α}
    (hcall : (system ι α).step r (.call t c) = some s)
    (hpath : (system ι α).Path (Until t) s ls s')
    (hreturned : s'.pc t = .returned x) :
    (system ι α).Sometime (Until t) (TakesEffect t c x) s ls s' := by
  have hbegin : s.pc t = .load c := by
    change step r (.call t c) = some s at hcall
    obtain ⟨t', c', hl, -, rfl⟩ | ⟨t', spurious, object, pc, hl, -⟩ |
      ⟨t', hl, -⟩ | ⟨value, hl, -⟩ := step_cases hcall
    · obtain ⟨rfl, rfl⟩ := Label.call.inj hl
      exact Function.update_self _ _ _
    · cases hl
    · cases hl
    · cases hl
  rcases inside_or_effect hbegin hpath with hinside | ⟨y, hy, hsome⟩
  · rw [hreturned] at hinside
    cases hinside
  · obtain rfl := Point.returned.inj (hreturned.symm.trans hy)
    exact hsome

/-- On the device, a fetch-max of 5 finds 3, fails once spuriously, fails on the
7 that was written meanwhile, and returns the 7 without an exchange. -/
theorem fetchExtremum_linearizable_overtaken :
    ∃ s s' : State (Fin 1) ℕ,
      (system (Fin 1) ℕ).step ⟨3, fun _ => .idle⟩ (.call 0 ⟨.max, 5, true⟩) =
        some s ∧
      s'.pc 0 = .returned 7 ∧
      (system (Fin 1) ℕ).Sometime (Until 0) (TakesEffect 0 ⟨.max, 5, true⟩ 7) s
        [.step 0 false, .step 0 true, .write 7, .step 0 false] s' := by
  obtain ⟨s, s', hcall, hexec, hreturned⟩ : ∃ s s' : State (Fin 1) ℕ,
      (system (Fin 1) ℕ).step ⟨3, fun _ => .idle⟩ (.call 0 ⟨.max, 5, true⟩) =
        some s ∧
      (system (Fin 1) ℕ).exec (Until 0) s
        [.step 0 false, .step 0 true, .write 7, .step 0 false] = some s' ∧
      s'.pc 0 = .returned 7 :=
    ⟨_, _, rfl, rfl, by decide⟩
  exact ⟨s, s', hcall, hreturned,
    fetchExtremum_linearizable hcall (System.path_of_exec hexec) hreturned⟩

end Libhipcxx.Atomic.Linearization
