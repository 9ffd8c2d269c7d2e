import Libhipcxx.Atomic.SubWord
import Libhipcxx.Support.AtomicObject
import Libhipcxx.Support.Threads
import Mathlib.Logic.Function.Basic

/-!
# Read-modify-write operations on objects of one and two bytes

Threads exchange, add to, and so on, objects that are lanes of one aligned word;
the lanes may differ, also in width.  Each call is a loop around the
compare-exchange of the lane, which is a loop around that of the word.

The first value that a call expects comes from a load of the lane.  No load of
one or two bytes is at hand here, so a load may return anything; where the loop
may end without an exchange, in fetch-max and fetch-min, it is assumed to return
the value of the lane.
-/

namespace Libhipcxx.Atomic.SubWordAtomic

open Transition Device Lanes SubWord

/-- The functions that are built on the compare-exchange of the lane. -/
inductive Op where
  | exchange
  | fetchAdd
  | fetchSub
  | fetchAnd
  | fetchOr
  | fetchXor
  | fetchMax
  | fetchMin
  deriving DecidableEq

deriving instance DecidableEq for LaneType, Pointer

/-- A call: `__ptr`, `__val` and the scope. -/
structure Call where
  type : LaneType
  ptr : Pointer type
  op : Op
  val : BitVec type.bits
  scope : ScopeTag
  deriving DecidableEq

namespace Call

/-- `__desired`, computed in `int` from the promoted operands. -/
def desired (c : Call) (expected : BitVec c.type.bits) : BitVec c.type.bits :=
  let e := c.type.promote expected
  let v := c.type.promote c.val
  match c.op with
  | .exchange => c.val
  | .fetchAdd => (e + v).setWidth c.type.bits
  | .fetchSub => (e - v).setWidth c.type.bits
  | .fetchAnd => (e &&& v).setWidth c.type.bits
  | .fetchOr => (e ||| v).setWidth c.type.bits
  | .fetchXor => (e ^^^ v).setWidth c.type.bits
  | .fetchMax => if v.slt e then expected else c.val
  | .fetchMin => if e.slt v then expected else c.val

/-- The part of the loop's test before the compare-exchange. -/
def goesOn (c : Call) (expected : BitVec c.type.bits) : Bool :=
  match c.op with
  | .fetchMax => c.desired expected = c.val
  | .fetchMin => c.desired expected = c.val
  | _ => true

/-- The operation on the whole word, and the bits that it returns. -/
def apply (c : Call) (w : SubWord.Word) : SubWord.Word × SubWord.Word :=
  (setLane c.ptr.offset (c.desired (c.ptr.value w)) w, (c.ptr.value w).setWidth 32)

end Call

/-- The next step of a thread: the load, the loop of the call, the test of the
inner loop, or the compare-exchange of the word. -/
inductive Point where
  | idle
  | load (c : Call)
  | start (c : Call) (expected : BitVec c.type.bits)
  | test (c : Call) (expected : BitVec c.type.bits) (old : SubWord.Word)
  | compareExchange (c : Call) (expected : BitVec c.type.bits) (old : SubWord.Word)
  | returned (value : SubWord.Word)

/-- A step other than the load. -/
def next : Point → SubWord.Word → Bool → Option (SubWord.Word × Point)
  | .start c expected, w, _ =>
      some (w, if c.goesOn expected then .test c expected (c.type.promote expected <<< c.ptr.offset)
        else .returned (expected.setWidth 32))
  | .test c expected old, w, _ =>
      let oldValue := (old &&& c.ptr.mask) >>> c.ptr.offset
      some (w, if oldValue ≠ c.type.promote expected then .start c (oldValue.setWidth c.type.bits)
        else .compareExchange c expected old)
  | .compareExchange c expected old, w, spurious =>
      let (exchanged, old', w') := atomicCompareExchangeCuda c.scope .four true spurious old
        (c.ptr.attempt (c.desired expected) old) w
      some (w', if exchanged then .returned (expected.setWidth 32) else .test c expected old')
  | _, _, _ => none

structure State (ι : Type) where
  word : SubWord.Word
  pc : ι → Point

/-- `write` is any other change of the word. -/
inductive Label (ι : Type) where
  | call (t : ι) (c : Call)
  | load (t : ι) (value : SubWord.Word)
  | step (t : ι) (spurious : Bool)
  | ret (t : ι)
  | write (w : SubWord.Word)

variable {ι : Type} [DecidableEq ι]

def step (s : State ι) : Label ι → Option (State ι)
  | .call t c =>
      match s.pc t with
      | .idle => some { s with pc := Function.update s.pc t (.load c) }
      | _ => none
  | .load t value =>
      match s.pc t with
      | .load c =>
          some { s with pc := Function.update s.pc t (.start c (value.setWidth c.type.bits)) }
      | _ => none
  | .step t spurious =>
      (next (s.pc t) s.word spurious).map fun (word, pc) =>
        { word := word, pc := Function.update s.pc t pc }
  | .ret t =>
      match s.pc t with
      | .returned _ => some { s with pc := Function.update s.pc t .idle }
      | _ => none
  | .write w => some { s with word := w }

def system (ι : Type) [DecidableEq ι] : System (State ι) (Label ι) where
  start s := ∀ t, s.pc t = .idle
  step := step

/-! ## What is assumed -/

/-- The load of fetch-max and fetch-min returns the value of the lane. -/
def Point.LoadsLane (w value : SubWord.Word) : Point → Prop
  | .load c =>
      c.op = .fetchMax ∨ c.op = .fetchMin → value.setWidth c.type.bits = c.ptr.value w
  | _ => True

/-- What is stored has no sign bits, or no lane is above: always so for an
unsigned type. -/
def Point.Stays : Point → Prop
  | .compareExchange c expected _ => StaysInLane c.ptr (c.desired expected)
  | _ => True

def Faithful (s : State ι) : Label ι → Prop
  | .load t value => (s.pc t).LoadsLane s.word value
  | .step t _ => (s.pc t).Stays
  | _ => True

instance (w value : SubWord.Word) (p : Point) : Decidable (p.LoadsLane w value) :=
  match p with
  | .load _ => inferInstanceAs (Decidable (_ → _))
  | .idle | .start _ _ | .test _ _ _ | .compareExchange _ _ _ | .returned _ =>
      inferInstanceAs (Decidable True)

instance (p : Point) : Decidable p.Stays :=
  match p with
  | .compareExchange _ _ _ => inferInstanceAs (Decidable (_ ∨ _))
  | .idle | .load _ | .start _ _ | .test _ _ _ | .returned _ => inferInstanceAs (Decidable True)

instance (s : State ι) (l : Label ι) : Decidable (Faithful s l) :=
  match l with
  | .load t value => inferInstanceAs (Decidable ((s.pc t).LoadsLane s.word value))
  | .step t _ => inferInstanceAs (Decidable (s.pc t).Stays)
  | .call _ _ | .ret _ | .write _ => inferInstanceAs (Decidable True)

/-! ## The points of the atomic object -/

/-- The call goes on, or has taken effect and is to return the value. -/
def Call.pointOf (c : Call) (expected : BitVec c.type.bits) :
    AtomicObject.Point Call SubWord.Word :=
  if c.goesOn expected then .called c else .answered (expected.setWidth 32)

/-- A call that has looked at the lane, and will not go on, has taken effect when
it looked. -/
def Point.abstract : Point → AtomicObject.Point Call SubWord.Word
  | .idle => .idle
  | .load c => .called c
  | .start c expected => c.pointOf expected
  | .test c expected old =>
      if (old &&& c.ptr.mask) >>> c.ptr.offset ≠ c.type.promote expected then
        c.pointOf (c.ptr.value old)
      else .called c
  | .compareExchange c _ _ => .called c
  | .returned value => .answered value

/-- The word that is to be replaced has the expected value in its lane. -/
def Point.Sound : Point → Prop
  | .compareExchange c expected old => c.ptr.value old = expected
  | _ => True

def State.abstract (s : State ι) : AtomicObject.State ι Call SubWord.Word SubWord.Word where
  value := s.word
  pc t := (s.pc t).abstract

/-- The call is to return, whatever the others do. -/
def Point.answers (p : Point) : Bool :=
  match p.abstract with
  | .answered _ => true
  | _ => false

/-- The call takes effect where its thread goes from `p` to `q`. -/
def effect (t : ι) (p q : Point) : List (AtomicObject.Action ι Call SubWord.Word SubWord.Word) :=
  if !p.answers && q.answers then [.act t] else []

/-- What the users of the objects can tell of a step, and where a call takes
effect. -/
def actions (s : State ι) :
    Label ι → List (AtomicObject.Action ι Call SubWord.Word SubWord.Word)
  | .call t c => [.call t c]
  | .load t value =>
      match s.pc t with
      | .load c => effect t (.load c) (.start c (value.setWidth c.type.bits))
      | _ => []
  | .step t spurious =>
      match next (s.pc t) s.word spurious with
      | some (_, pc) => effect t (s.pc t) pc
      | none => []
  | .ret t =>
      match s.pc t with
      | .returned value => [.ret t value]
      | _ => []
  | .write w => [.write w]

variable {s s' : State ι} {t : ι} {c : Call} {expected : BitVec c.type.bits}
  {old w w' value : SubWord.Word} {p : Point} {spurious : Bool}

theorem setLane_lane {N : ℕ} (o n : ℕ) (w : BitVec N) : setLane o (lane o n w) w = w := by
  apply BitVec.eq_of_getLsbD_eq
  intro i hi
  rw [getLsbD_setLane _ _ _ hi]
  split
  · rename_i hin
    have hsub : o + (i - o) = i := Nat.add_sub_cancel' hin.1
    have hlt : i - o < n := by
      have hhigh := hin.2
      omega
    rw [getLsbD_lane, hsub]
    simp [hlt]
  · rfl

/-- A loop that ends without an exchange leaves the operand aside. -/
theorem desired_of_stops (h : c.goesOn expected = false) : c.desired expected = expected := by
  have hne : c.desired expected ≠ c.val := by
    intro heq
    rw [Call.goesOn] at h
    split at h <;> simp [heq] at h
  cases hop : c.op
  case fetchMax =>
    simp only [Call.desired, hop] at hne ⊢
    split at hne
    · rename_i hlt
      exact if_pos hlt
    · exact absurd rfl hne
  case fetchMin =>
    simp only [Call.desired, hop] at hne ⊢
    split at hne
    · rename_i hlt
      exact if_pos hlt
    · exact absurd rfl hne
  all_goals
    rw [Call.goesOn, hop] at h
    cases h

theorem extremum_of_stops (h : c.goesOn expected = false) :
    c.op = .fetchMax ∨ c.op = .fetchMin := by
  cases hop : c.op
  case fetchMax => exact Or.inl rfl
  case fetchMin => exact Or.inr rfl
  all_goals
    rw [Call.goesOn, hop] at h
    cases h

/-- To look at a lane and go no further is what the operation asks for. -/
theorem apply_of_stops (h : c.goesOn (c.ptr.value w) = false) :
    c.apply w = (w, (c.ptr.value w).setWidth 32) := by
  rw [Call.apply, desired_of_stops h, Pointer.value, setLane_lane]

/-- An exchange of the word is the operation on the lane. -/
theorem apply_of_exchange (hvalue : c.ptr.value old = expected)
    (hstays : StaysInLane c.ptr (c.desired expected)) :
    c.apply old = (c.ptr.attempt (c.desired expected) old, expected.setWidth 32) := by
  rw [Call.apply, hvalue, attempt_eq hstays]

/-! ## Steps -/

/-- The compare-exchange of the word exchanges it, or looks at it. -/
theorem compareExchange_cases (c : Call) (expected : BitVec c.type.bits)
    (old w : SubWord.Word) (spurious : Bool) :
    (w = old ∧ next (.compareExchange c expected old) w spurious =
      some (c.ptr.attempt (c.desired expected) old, .returned (expected.setWidth 32))) ∨
    next (.compareExchange c expected old) w spurious = some (w, .test c expected w) := by
  simp only [next, cuda_weak, hipAtomicCompareExchangeWeak, hipAtomicCompareExchangeStrong]
  cases spurious
  · by_cases hw : w = old
    · left
      simp [hw]
    · right
      simp [hw]
  · right
    simp

theorem pointOf_called (h : c.goesOn expected = true) : c.pointOf expected = .called c :=
  if_pos h

theorem pointOf_answered (h : c.goesOn expected = false) :
    c.pointOf expected = .answered (expected.setWidth 32) :=
  if_neg (by rw [h]; exact Bool.false_ne_true)

/-- The inner loop is left for the outer one without a look at the word, or after
one: the value in the lane is already known. -/
theorem abstract_test (c : Call) (expected : BitVec c.type.bits) (old : SubWord.Word) :
    (Point.test c expected old).abstract = c.pointOf (c.ptr.value old) ∨
      (Point.test c expected old).abstract = .called c := by
  rw [Point.abstract]
  split
  · exact Or.inl rfl
  · exact Or.inr rfl

/-- The first test of the inner loop looks at no word. -/
theorem abstract_test_start (h : c.goesOn expected = true) :
    (Point.test c expected (c.type.promote expected <<< c.ptr.offset)).abstract = .called c := by
  rcases abstract_test c expected (c.type.promote expected <<< c.ptr.offset) with htest | htest
  · rw [htest, value_start, pointOf_called h]
  · exact htest

/-- A step of a thread that nobody sees. -/
theorem run_silent {q : Point} (h : q.abstract = (s.pc t).abstract) :
    AtomicObject.Run Call.apply s.abstract (effect t (s.pc t) q)
      (State.abstract ⟨s.word, Function.update s.pc t q⟩) := by
  have hnone : effect t (s.pc t) q = [] := by
    rw [effect, Point.answers, Point.answers, h]
    simp
  rw [hnone]
  apply AtomicObject.Run.silent
  rw [State.abstract, State.abstract]
  congr 1
  funext u
  exact Threads.apply_update_eq h u

/-- A step at which a call takes effect. -/
theorem run_effect {q : Point} (hcalled : (s.pc t).abstract = .called c)
    (hanswered : q.abstract = .answered value) (happly : c.apply s.word = (w', value)) :
    AtomicObject.Run Call.apply s.abstract (effect t (s.pc t) q)
      (State.abstract ⟨w', Function.update s.pc t q⟩) := by
  have hone : effect t (s.pc t) q = [.act t] := by
    rw [effect, Point.answers, Point.answers, hcalled, hanswered]
    rfl
  rw [hone]
  refine AtomicObject.Run.act (k := c) hcalled ?_
  have hvalue : s.abstract.value = s.word := rfl
  rw [AtomicObject.State.act, hvalue, happly, State.abstract]
  congr 1
  funext u
  by_cases hu : u = t
  · simp only [hu, Function.update_self, hanswered]
  · simp only [Function.update_of_ne hu]
    rfl

/-- A call has looked at the lane: it has taken effect, or goes on. -/
theorem run_look {q : Point} (hcalled : (s.pc t).abstract = .called c)
    (hq : q.abstract = c.pointOf (c.ptr.value s.word) ∨ q.abstract = .called c) :
    AtomicObject.Run Call.apply s.abstract (effect t (s.pc t) q)
      (State.abstract ⟨s.word, Function.update s.pc t q⟩) := by
  by_cases hgoes : c.goesOn (c.ptr.value s.word) = true
  · rw [pointOf_called hgoes, or_self] at hq
    exact run_silent (hq.trans hcalled.symm)
  · rw [Bool.not_eq_true] at hgoes
    rcases hq with hpoint | hsame
    · rw [pointOf_answered hgoes] at hpoint
      exact run_effect hcalled hpoint (apply_of_stops hgoes)
    · exact run_silent (hsame.trans hcalled.symm)

theorem run_load (hpc : s.pc t = .load c) (hloads : (s.pc t).LoadsLane s.word value) :
    AtomicObject.Run Call.apply s.abstract
      (effect t (s.pc t) (.start c (value.setWidth c.type.bits)))
      (State.abstract ⟨s.word, Function.update s.pc t (.start c (value.setWidth c.type.bits))⟩) := by
  have hcalled : (s.pc t).abstract = .called c := by rw [hpc]; rfl
  rw [hpc] at hloads
  apply run_look hcalled
  by_cases hgoes : c.goesOn (value.setWidth c.type.bits) = true
  · exact Or.inr (pointOf_called hgoes)
  · rw [Bool.not_eq_true] at hgoes
    rw [← hloads (extremum_of_stops hgoes)]
    exact Or.inl rfl

theorem run_next (hsound : (s.pc t).Sound) (hstays : (s.pc t).Stays)
    (hnext : next (s.pc t) s.word spurious = some (w', p)) :
    AtomicObject.Run Call.apply s.abstract (effect t (s.pc t) p)
      (State.abstract ⟨w', Function.update s.pc t p⟩) := by
  cases hpc : s.pc t with
  | start c expected =>
      rw [hpc] at hnext
      obtain ⟨rfl, rfl⟩ := Prod.mk.inj (Option.some.inj hnext)
      rw [← hpc]
      apply run_silent
      rw [hpc]
      split
      · rename_i hgoes
        rw [abstract_test_start hgoes]
        exact (pointOf_called hgoes).symm
      · rename_i hstops
        exact (pointOf_answered (Bool.not_eq_true _ ▸ hstops)).symm
  | test c expected old =>
      rw [hpc] at hnext
      obtain ⟨rfl, rfl⟩ := Prod.mk.inj (Option.some.inj hnext)
      rw [← hpc]
      apply run_silent
      rw [hpc, Point.abstract, c.ptr.read_eq]
      split
      · rw [setWidth_setWidth]
        rfl
      · rfl
  | compareExchange c expected old =>
      have hcalled : (s.pc t).abstract = .called c := by rw [hpc]; rfl
      rw [hpc] at hsound hstays hnext
      rcases compareExchange_cases c expected old s.word spurious with ⟨hword, hdone⟩ | hlook
      · obtain ⟨rfl, rfl⟩ := Prod.mk.inj (Option.some.inj (hdone.symm.trans hnext))
        rw [← hpc]
        apply run_effect hcalled rfl
        rw [hword]
        exact apply_of_exchange hsound hstays
      · obtain ⟨rfl, rfl⟩ := Prod.mk.inj (Option.some.inj (hlook.symm.trans hnext))
        rw [← hpc]
        exact run_look hcalled (abstract_test c expected s.word)
  | idle =>
      rw [hpc] at hnext
      cases hnext
  | load c =>
      rw [hpc] at hnext
      cases hnext
  | returned value =>
      rw [hpc] at hnext
      cases hnext

theorem sound_next (hnext : next p w spurious = some (w', p')) : p'.Sound := by
  cases p with
  | start c expected =>
      obtain ⟨rfl, rfl⟩ := Prod.mk.inj (Option.some.inj hnext)
      split <;> exact True.intro
  | test c expected old =>
      obtain ⟨rfl, rfl⟩ := Prod.mk.inj (Option.some.inj hnext)
      split
      · exact True.intro
      · rename_i hequal
        exact ((read_eq_promote_iff c.ptr expected old).mp (not_not.mp hequal)).2
  | compareExchange c expected old =>
      rcases compareExchange_cases c expected old w spurious with ⟨-, hdone⟩ | hlook
      · obtain ⟨rfl, rfl⟩ := Prod.mk.inj (Option.some.inj (hdone.symm.trans hnext))
        exact True.intro
      · obtain ⟨rfl, rfl⟩ := Prod.mk.inj (Option.some.inj (hlook.symm.trans hnext))
        exact True.intro
  | idle => cases hnext
  | load c => cases hnext
  | returned value => cases hnext

theorem sound_update {q : Point} (h : ∀ u, (s.pc u).Sound) (hq : q.Sound) (u : ι) :
    (Function.update s.pc t q u).Sound := by
  by_cases hu : u = t
  · rwa [hu, Function.update_self]
  · rw [Function.update_of_ne hu]
    exact h u

theorem sound_step {l : Label ι} (h : ∀ u, (s.pc u).Sound) (hstep : step s l = some s')
    (u : ι) : (s'.pc u).Sound := by
  cases l with
  | call t c =>
      rw [step] at hstep
      split at hstep
      · obtain rfl := Option.some.inj hstep
        exact sound_update (q := .load c) h True.intro u
      · cases hstep
  | load t value =>
      rw [step] at hstep
      split at hstep
      · obtain rfl := Option.some.inj hstep
        exact sound_update (q := .start _ _) h True.intro u
      · cases hstep
  | step t spurious =>
      obtain ⟨⟨w', p⟩, hnext, rfl⟩ := Option.map_eq_some_iff.mp hstep
      exact sound_update h (sound_next hnext) u
  | ret t =>
      rw [step] at hstep
      split at hstep
      · obtain rfl := Option.some.inj hstep
        exact sound_update (q := .idle) h True.intro u
      · cases hstep
  | write w =>
      obtain rfl := Option.some.inj hstep
      exact h u

theorem sound_of_reachable (h : (system ι).Reachable Faithful s) (t : ι) : (s.pc t).Sound := by
  refine h.invariant (P := fun s => ∀ t, (s.pc t).Sound) ?_
    (fun s l s' hsound _ => sound_step hsound) t
  intro s hidle t
  rw [hidle t]
  exact True.intro

theorem abstract_setPc {q : Point} :
    State.abstract ⟨s.word, Function.update s.pc t q⟩ = s.abstract.setPc t q.abstract := by
  rw [State.abstract, AtomicObject.State.setPc]
  congr 1
  funext u
  by_cases hu : u = t
  · simp only [hu, Function.update_self]
  · simp only [Function.update_of_ne hu]
    rfl

theorem run_step {l : Label ι} (hsound : ∀ u, (s.pc u).Sound) (hcond : Faithful s l)
    (hstep : step s l = some s') :
    AtomicObject.Run Call.apply s.abstract (actions s l) s'.abstract := by
  cases l with
  | call t c =>
      rw [step] at hstep
      split at hstep
      · rename_i hpc
        obtain rfl := Option.some.inj hstep
        have hidle : s.abstract.pc t = .idle := by
          change (s.pc t).abstract = _
          rw [hpc]
          rfl
        exact AtomicObject.Run.call hidle abstract_setPc
      · cases hstep
  | load t value =>
      rw [step] at hstep
      rw [actions]
      split at hstep
      · rename_i c hpc
        obtain rfl := Option.some.inj hstep
        have hrun := run_load hpc hcond
        rwa [hpc] at hrun
      · cases hstep
  | step t spurious =>
      obtain ⟨⟨w', p⟩, hnext, rfl⟩ := Option.map_eq_some_iff.mp hstep
      rw [actions, hnext]
      exact run_next (hsound t) hcond hnext
  | ret t =>
      rw [step] at hstep
      rw [actions]
      split at hstep
      · rename_i value hpc
        obtain rfl := Option.some.inj hstep
        have hanswered : s.abstract.pc t = .answered value := by
          change (s.pc t).abstract = _
          rw [hpc]
          rfl
        exact AtomicObject.Run.ret hanswered abstract_setPc
      · cases hstep
  | write w =>
      obtain rfl := Option.some.inj hstep
      exact AtomicObject.Run.write rfl

/-- Every run, read by its calls, its returns and the other writes, is one of an
object whose operations work on their lanes of the word atomically. -/
theorem subWord_atomic (s : State ι) (ls : List (Label ι)) (s' : State ι)
    (hstart : ∀ t, s.pc t = .idle) (h : (system ι).Path Faithful s ls s') :
    AtomicObject.Run Call.apply s.abstract ((system ι).reading actions s ls) s'.abstract :=
  h.simulate_map (f := State.abstract) (fun _ _ _ hreach hcond hstep =>
    run_step (sound_of_reachable hreach) hcond hstep) hstart

/-- While one thread adds 1 to the upper halfword, another takes the maximum of the
lowest byte and 2, and finds 9. -/
theorem subWord_atomic_two :
    let add : Call := ⟨uint16, ⟨2, by decide⟩, .fetchAdd, 1, .device⟩
    let max : Call := ⟨⟨1, false, by decide, by decide⟩, ⟨0, by decide⟩, .fetchMax, 2, .block⟩
    ∃ s' : State (Fin 2), s'.word = 0x00080009 ∧
      AtomicObject.Run Call.apply (State.abstract ⟨0x00070001, fun _ => .idle⟩)
        [.call 0 add, .call 1 max, .write 0x00070009, .act 1, .ret 1 9, .act 0, .ret 0 7]
        s'.abstract := by
  intro add max
  let ls : List (Label (Fin 2)) :=
    [.call 0 add, .load 0 7, .step 0 false, .step 0 false, .call 1 max, .load 1 1,
      .step 1 false, .step 1 false, .step 0 true, .write 0x00070009, .step 0 false,
      .step 0 false, .step 0 false, .step 1 false, .step 1 false, .step 1 false, .ret 1,
      .step 0 false, .ret 0]
  have hexec : ((system (Fin 2)).exec Faithful ⟨0x00070001, fun _ => .idle⟩ ls).map State.word =
      some 0x00080009 := by
    decide
  obtain ⟨s', hs', hword⟩ := Option.map_eq_some_iff.mp hexec
  have hread : (system (Fin 2)).reading actions ⟨0x00070001, fun _ => .idle⟩ ls =
      [.call 0 add, .call 1 max, .write 0x00070009, .act 1, .ret 1 9, .act 0, .ret 0 7] := by
    decide
  have hrun := subWord_atomic _ ls s' (fun _ => rfl) (System.path_of_exec hs')
  rw [hread] at hrun
  exact ⟨s', hword, hrun⟩

end Libhipcxx.Atomic.SubWordAtomic
