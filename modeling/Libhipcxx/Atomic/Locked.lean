import Libhipcxx.Support.AtomicObject
import Libhipcxx.Support.Threads
import Mathlib.Data.Fin.VecNotation

/-!
# Atomic objects behind a lock

An object of a type without lock-free instructions is kept beside a flag.  Each
operation spins until it has exchanged the flag from 0 to 1, works on the object
with ordinary loads and stores, and stores 0 to the flag.

An ordinary access is not atomic: the object is copied piece by piece, one piece
a step, and a local variable holds anything before it is assigned.  The volatile
overloads are modelled; `_Tp` has `n` pieces of type `β`.
-/

namespace Libhipcxx.Atomic.Locked

open Transition AtomicObject Threads

abbrev Value (n : ℕ) (β : Type) := Fin n → β

/-- The operations; `fetch` is `__cxx_atomic_fetch_add` and the like, with what
they store over a value. -/
inductive Op (n : ℕ) (β : Type) where
  | store (val : Value n β)
  | load
  | exchange (value : Value n β)
  | compareExchange (expected value : Value n β)
  | fetch (f : Value n β → Value n β)

/-- What an operation leaves with its caller: nothing, the old value, or the
result of a compare-exchange and `*__expected`. -/
inductive Reply (n : ℕ) (β : Type) where
  | done
  | old (value : Value n β)
  | exchanged (ret : Bool) (expected : Value n β)
  deriving DecidableEq

/-- The next step of a thread.  The copies are to go on with piece `i`. -/
inductive Point (n : ℕ) (β : Type) where
  | idle
  | lock (op : Op n β)
  | read (op : Op n β) (i : ℕ) (old : Value n β)
  | readExpected (i : ℕ) (expected : Value n β)
  | write (value : Value n β) (i : ℕ) (reply : Reply n β)
  | unlock (reply : Reply n β)
  | returned (reply : Reply n β)

section Steps

variable {n : ℕ} {β : Type} [DecidableEq β]

/-- The first step behind `__lock`; `unassigned` is in the local variable. -/
def enter (unassigned : Value n β) : Op n β → Point n β
  | .store val => .write val 0 .done
  | op => .read op 0 unassigned

/-- What follows when the object has been copied to the local variable. -/
def afterRead (old : Value n β) : Op n β → Point n β
  | .store val => .write val 0 .done
  | .load => .unlock (.old old)
  | .exchange value => .write value 0 (.old old)
  | .compareExchange expected value =>
      if old = expected then .write value 0 (.exchanged true expected)
      else .readExpected 0 expected
  | .fetch f => .write (f old) 0 (.old old)

/-- `__a_value` and `__a_lock`. -/
structure Object (n : ℕ) (β : Type) where
  value : Value n β
  lock : ℤ

/-- One step at a point. -/
def next (unassigned : Value n β) : Point n β → Object n β → Option (Object n β × Point n β)
  | .lock op, a => some ({ a with lock := 1 }, if a.lock = 1 then .lock op else enter unassigned op)
  | .read op i old, a =>
      some (a, if h : i < n then .read op (i + 1) (Function.update old ⟨i, h⟩ (a.value ⟨i, h⟩))
        else afterRead old op)
  | .readExpected i expected, a =>
      some (a,
        if h : i < n then .readExpected (i + 1) (Function.update expected ⟨i, h⟩ (a.value ⟨i, h⟩))
        else .unlock (.exchanged false expected))
  | .write value i reply, a =>
      some (if h : i < n then
          ({ a with value := Function.update a.value ⟨i, h⟩ (value ⟨i, h⟩) },
            .write value (i + 1) reply)
        else (a, .unlock reply))
  | .unlock reply, a => some ({ a with lock := 0 }, .returned reply)
  | _, _ => none

structure State (ι : Type) (n : ℕ) (β : Type) where
  object : Object n β
  pc : ι → Point n β

inductive Label (ι : Type) (n : ℕ) (β : Type) where
  | call (t : ι) (op : Op n β)
  | step (t : ι)
  | ret (t : ι)

variable {ι : Type} [DecidableEq ι]

def step (unassigned : Value n β) (s : State ι n β) : Label ι n β → Option (State ι n β)
  | .call t op =>
      match s.pc t with
      | .idle => some { s with pc := Function.update s.pc t (.lock op) }
      | _ => none
  | .step t =>
      (next unassigned (s.pc t) s.object).map fun (object, pc) =>
        { object := object, pc := Function.update s.pc t pc }
  | .ret t =>
      match s.pc t with
      | .returned _ => some { s with pc := Function.update s.pc t .idle }
      | _ => none

/-- The constructor leaves any value and an open lock. -/
def system (ι : Type) [DecidableEq ι] (unassigned : Value n β) :
    System (State ι n β) (Label ι n β) where
  start s := s.object.lock = 0 ∧ ∀ t, s.pc t = .idle
  step := step unassigned

/-! ## What the operations are for -/

/-- The operation on a whole value. -/
def Op.apply : Op n β → Value n β → Value n β × Reply n β
  | .store val, _ => (val, .done)
  | .load, x => (x, .old x)
  | .exchange value, x => (value, .old x)
  | .compareExchange expected value, x =>
      if x = expected then (value, .exchanged true expected) else (x, .exchanged false x)
  | .fetch f, x => (f x, .old x)

end Steps

/-! ## Mutual exclusion -/

section Exclusion

variable {n : ℕ} {β ι : Type}

/-- The thread has the lock. -/
def Point.Locks : Point n β → Prop
  | .read .. => True
  | .readExpected .. => True
  | .write .. => True
  | .unlock _ => True
  | _ => False

/-- What a copy has done so far. -/
def Point.Sound (x : Value n β) : Point n β → Prop
  | .read _ i old => ∀ j : Fin n, j < i → old j = x j
  | .readExpected i expected => ∀ j : Fin n, j < i → expected j = x j
  | .write value i _ => ∀ j : Fin n, j < i → x j = value j
  | _ => True

/-- The flag is 1 if and only if a thread has the lock, and there is one only. -/
structure Inv (a : Object n β) (pc : ι → Point n β) : Prop where
  exclusive : ∀ t u, (pc t).Locks → (pc u).Locks → t = u
  lock_eq : a.lock = 1 ↔ ∃ t, (pc t).Locks
  sound : ∀ t, (pc t).Sound a.value

variable {unassigned x value old : Value n β} {pc : ι → Point n β} {t u : ι} {p : Point n β}
  {a a' : Object n β} {i : ℕ}

theorem Point.sound_of_not_locks (h : ¬p.Locks) : p.Sound x := by
  cases p
  case read => exact absurd True.intro h
  case readExpected => exact absurd True.intro h
  case write => exact absurd True.intro h
  all_goals exact True.intro

theorem enter_locks (op : Op n β) : (enter unassigned op).Locks := by
  cases op <;> exact True.intro

theorem enter_sound (op : Op n β) : (enter unassigned op).Sound x := by
  cases op <;> exact fun j hj => absurd hj (Nat.not_lt_zero _)

/-- One more piece is copied. -/
theorem copy_piece (h : ∀ j : Fin n, j < i → old j = x j) (hi : i < n) (j : Fin n)
    (hj : j < i + 1) : Function.update old ⟨i, hi⟩ (x ⟨i, hi⟩) j = x j := by
  by_cases heq : j = ⟨i, hi⟩
  · rw [heq, Function.update_self]
  · rw [Function.update_of_ne heq]
    have hne : (j : ℕ) ≠ i := fun hval => heq (Fin.ext hval)
    exact h j (by omega)

theorem copied (h : ∀ j : Fin n, j < i → old j = x j) (hi : ¬i < n) : old = x := by
  funext j
  exact h j (by omega)

theorem Inv.not_locks (h : Inv a pc) (ht : (pc t).Locks) (hne : u ≠ t) : ¬(pc u).Locks :=
  fun hu => hne (h.exclusive u t hu ht)

variable [DecidableEq ι]

/-- A thread that has the lock while no other does. -/
theorem inv_alone (hlock : a.lock = 1) (hothers : ∀ u ≠ t, ¬(pc u).Locks) (hp : p.Locks)
    (hsound : p.Sound a.value) : Inv a (Function.update pc t p) := by
  have hold (u : ι) (hu : (Function.update pc t p u).Locks) : u = t := by
    by_contra hne
    rw [Function.update_of_ne hne] at hu
    exact hothers u hne hu
  refine ⟨fun u w hu hw => (hold u hu).trans (hold w hw).symm, ?_, fun u => ?_⟩
  · exact ⟨fun _ => ⟨t, by rwa [Function.update_self]⟩, fun _ => hlock⟩
  · by_cases hu : u = t
    · rwa [hu, Function.update_self]
    · rw [Function.update_of_ne hu]
      exact Point.sound_of_not_locks (hothers u hu)

theorem Inv.inside (h : Inv a pc) (ht : (pc t).Locks) (hp : p.Locks) (hlock : a'.lock = a.lock)
    (hsound : p.Sound a'.value) : Inv a' (Function.update pc t p) :=
  inv_alone (hlock.trans (h.lock_eq.mpr ⟨t, ht⟩)) (fun _ hu => h.not_locks ht hu) hp hsound

theorem Inv.acquire (h : Inv a pc) (hopen : a.lock ≠ 1) (hp : p.Locks) (hsound : p.Sound a.value) :
    Inv { a with lock := 1 } (Function.update pc t p) :=
  inv_alone rfl (fun u _ hu => hopen (h.lock_eq.mpr ⟨u, hu⟩)) hp hsound

theorem Inv.release (h : Inv a pc) (ht : (pc t).Locks) (hp : ¬p.Locks) :
    Inv { a with lock := 0 } (Function.update pc t p) := by
  have hnone (u : ι) : ¬(Function.update pc t p u).Locks := by
    intro hu
    obtain ⟨hne, hu⟩ := prop_of_update hu hp
    exact h.not_locks ht hne hu
  refine ⟨fun u _ hu => absurd hu (hnone u), ?_, fun u => Point.sound_of_not_locks (hnone u)⟩
  constructor
  · intro hzero
    cases hzero
  · rintro ⟨u, hu⟩
    exact absurd hu (hnone u)

/-- A step of a thread that does not have the lock, and does not get it. -/
theorem Inv.outside (h : Inv a pc) (ht : ¬(pc t).Locks) (hp : ¬p.Locks) :
    Inv a (Function.update pc t p) where
  exclusive u w hu hw :=
    h.exclusive u w (prop_of_update hu hp).2 (prop_of_update hw hp).2
  lock_eq := by
    rw [h.lock_eq]
    constructor
    · exact exists_update fun hlocks => absurd hlocks ht
    · rintro ⟨u, hu⟩
      exact ⟨u, (prop_of_update hu hp).2⟩
  sound u := by
    by_cases hu : u = t
    · rw [hu, Function.update_self]
      exact Point.sound_of_not_locks hp
    · rw [Function.update_of_ne hu]
      exact h.sound u

end Exclusion

/-! ## The object that the threads see -/

section Meaning

variable {n : ℕ} {β ι : Type}

/-- The point of the atomic object; a compare-exchange that has not found the
expected value has failed. -/
def Point.abstract (x : Value n β) : Point n β → AtomicObject.Point (Op n β) (Reply n β)
  | .idle => .idle
  | .lock op => .called op
  | .read op _ _ => .called op
  | .readExpected _ _ => .answered (.exchanged false x)
  | .write _ _ reply => .answered reply
  | .unlock reply => .answered reply
  | .returned reply => .answered reply

/-- The value that a thread is storing. -/
def Point.pending : Point n β → Option (Value n β)
  | .write value _ _ => some value
  | _ => none

/-- The value of the atomic object: the one being stored, if there is one. -/
structure Current (v : Value n β) (a : Object n β) (pc : ι → Point n β) : Prop where
  of_pending : ∀ t value, (pc t).pending = some value → v = value
  of_none : (∀ t, (pc t).pending = none) → v = a.value

/-- What the threads see is an atomic object with this state. -/
structure Represents (s : State ι n β)
    (b : AtomicObject.State ι (Op n β) (Reply n β) (Value n β)) : Prop where
  value : Current b.value s.object s.pc
  pc : ∀ t, b.pc t = (s.pc t).abstract s.object.value

variable {x y v : Value n β} {pc : ι → Point n β} {t u : ι} {p : Point n β} {a a' : Object n β}
  {s : State ι n β} {b : AtomicObject.State ι (Op n β) (Reply n β) (Value n β)}
  {q : AtomicObject.Point (Op n β) (Reply n β)}

theorem Point.abstract_eq (h : ¬p.Locks) (x y : Value n β) : p.abstract x = p.abstract y := by
  cases p
  case readExpected => exact absurd True.intro h
  all_goals rfl

theorem Point.pending_eq_none (h : ¬p.Locks) : p.pending = none := by
  cases p
  case write => exact absurd True.intro h
  all_goals rfl

/-- The lock is in the hands of a thread that stores nothing yet, or nothing
any more. -/
theorem Current.eq_value (h : Current v a pc) (hothers : ∀ u ≠ t, ¬(pc u).Locks)
    (ht : (pc t).pending = none) : v = a.value := by
  apply h.of_none
  intro u
  by_cases hu : u = t
  · rwa [hu]
  · exact Point.pending_eq_none (hothers u hu)

variable [DecidableEq ι]

theorem current_alone (hothers : ∀ u ≠ t, ¬(pc u).Locks)
    (hp : p.pending = some v ∨ p.pending = none ∧ v = a.value) :
    Current v a (Function.update pc t p) where
  of_pending u value hu := by
    by_cases hut : u = t
    · rw [hut, Function.update_self] at hu
      rcases hp with hsome | ⟨hnone, -⟩
      · exact Option.some.inj (hsome.symm.trans hu)
      · rw [hnone] at hu
        cases hu
    · rw [Function.update_of_ne hut, Point.pending_eq_none (hothers u hut)] at hu
      cases hu
  of_none hall := by
    rcases hp with hsome | ⟨-, hv⟩
    · have hself := hall t
      rw [Function.update_self, hsome] at hself
      cases hself
    · exact hv

theorem Current.outside (h : Current v a pc) (ht : ¬(pc t).Locks) (hp : ¬p.Locks)
    (hvalue : a'.value = a.value) : Current v a' (Function.update pc t p) := by
  have hsame (u : ι) : (Function.update pc t p u).pending = (pc u).pending :=
    apply_update_eq (by rw [Point.pending_eq_none hp, Point.pending_eq_none ht]) u
  refine ⟨fun u value hu => h.of_pending u value ((hsame u).symm.trans hu), fun hall => ?_⟩
  rw [hvalue]
  exact h.of_none fun u => (hsame u).symm.trans (hall u)

/-- Thread `t` moves; the value changes under no other thread that looks at it. -/
theorem Represents.update (h : Represents s b) (hcurrent : Current v a' (Function.update s.pc t p))
    (hothers : a'.value = s.object.value ∨ ∀ u ≠ t, ¬(s.pc u).Locks)
    (hp : p.abstract a'.value = q) :
    Represents ⟨a', Function.update s.pc t p⟩ ⟨v, Function.update b.pc t q⟩ where
  value := hcurrent
  pc u := by
    by_cases hu : u = t
    · simp only [hu, Function.update_self, hp]
    · simp only [Function.update_of_ne hu]
      rw [h.pc u]
      rcases hothers with hsame | hnone
      · rw [hsame]
      · exact Point.abstract_eq (hnone u hu) _ _

/-- A step that the users cannot tell. -/
theorem Represents.silent (h : Represents s b)
    (hcurrent : Current b.value a' (Function.update s.pc t p))
    (hothers : a'.value = s.object.value ∨ ∀ u ≠ t, ¬(s.pc u).Locks)
    (hp : p.abstract a'.value = (s.pc t).abstract s.object.value) :
    Represents ⟨a', Function.update s.pc t p⟩ b := by
  have hupdate := h.update hcurrent hothers (hp.trans (h.pc t).symm)
  rwa [Function.update_eq_self] at hupdate

end Meaning

/-! ## Runs -/

section Runs

variable {n : ℕ} {β ι : Type} [DecidableEq β] [DecidableEq ι]

/-- The call takes effect with the step at this point: a store when it gets the
lock, any other operation when it has copied the object. -/
def Point.takesEffect (a : Object n β) : Point n β → Bool
  | .lock (.store _) => a.lock ≠ 1
  | .read _ i _ => n ≤ i
  | _ => false

/-- What the users of the object can tell of a step, and where a call takes
effect. -/
def actions (s : State ι n β) : Label ι n β →
    List (AtomicObject.Action ι (Op n β) (Reply n β) (Value n β))
  | .call t op => [.call t op]
  | .step t => if (s.pc t).takesEffect s.object then [.act t] else []
  | .ret t =>
      match s.pc t with
      | .returned reply => [.ret t reply]
      | _ => []

variable {unassigned x v : Value n β} {s s' : State ι n β} {t : ι} {op : Op n β} {i : ℕ}
  {reply : Reply n β} {b : AtomicObject.State ι (Op n β) (Reply n β) (Value n β)}

theorem run_silent (h : (s.pc t).takesEffect s.object = false) :
    AtomicObject.Run Op.apply b (actions s (.step t)) b := by
  rw [actions, h]
  exact AtomicObject.Run.silent rfl

theorem run_act (h : (s.pc t).takesEffect s.object = true) (hcalled : b.pc t = .called op) :
    AtomicObject.Run Op.apply b (actions s (.step t)) (b.act Op.apply t op) := by
  rw [actions, h]
  exact AtomicObject.Run.act hcalled rfl

theorem afterRead_locks (x : Value n β) (op : Op n β) : (afterRead x op).Locks := by
  cases op
  case compareExchange expected value =>
    rw [afterRead]
    split <;> exact True.intro
  all_goals exact True.intro

theorem afterRead_sound (x y : Value n β) (op : Op n β) : (afterRead x op).Sound y := by
  cases op
  case compareExchange expected value =>
    rw [afterRead]
    split <;> exact fun j hj => absurd hj (Nat.not_lt_zero _)
  case load => exact True.intro
  all_goals exact fun j hj => absurd hj (Nat.not_lt_zero _)

/-- When the object has been copied, the answer is settled, and so is what is to
be stored. -/
theorem afterRead_spec (x : Value n β) (op : Op n β) :
    (afterRead x op).abstract x = .answered (op.apply x).2 ∧
      ((afterRead x op).pending = some (op.apply x).1 ∨
        (afterRead x op).pending = none ∧ (op.apply x).1 = x) := by
  cases op
  case compareExchange expected value =>
    rw [afterRead, Op.apply]
    split
    · exact ⟨rfl, Or.inl rfl⟩
    · exact ⟨rfl, Or.inr ⟨rfl, rfl⟩⟩
  case load => exact ⟨rfl, Or.inr ⟨rfl, rfl⟩⟩
  all_goals exact ⟨rfl, Or.inl rfl⟩

theorem inv_next {a a' : Object n β} {pc : ι → Point n β} {p : Point n β} (h : Inv a pc)
    (hnext : next unassigned (pc t) a = some (a', p)) : Inv a' (Function.update pc t p) := by
  have hsound := h.sound t
  cases hpc : pc t with
  | idle =>
      rw [hpc] at hnext
      cases hnext
  | lock op =>
      have hout : ¬(pc t).Locks := by rw [hpc]; exact id
      rw [hpc, next] at hnext
      obtain ⟨rfl, rfl⟩ := Prod.mk.inj (Option.some.inj hnext)
      split
      · rename_i hlock
        have hsame : ({ a with lock := 1 } : Object n β) = a := by rw [← hlock]
        rw [hsame]
        exact h.outside hout id
      · rename_i hopen
        exact h.acquire hopen (enter_locks op) (enter_sound op)
  | read op i old =>
      have hin : (pc t).Locks := by rw [hpc]; exact True.intro
      rw [hpc] at hsound hnext
      obtain ⟨rfl, rfl⟩ := Prod.mk.inj (Option.some.inj hnext)
      split
      · rename_i hi
        exact h.inside hin True.intro rfl (copy_piece hsound hi)
      · exact h.inside hin (afterRead_locks _ _) rfl (afterRead_sound _ _ _)
  | readExpected i expected =>
      have hin : (pc t).Locks := by rw [hpc]; exact True.intro
      rw [hpc] at hsound hnext
      obtain ⟨rfl, rfl⟩ := Prod.mk.inj (Option.some.inj hnext)
      split
      · rename_i hi
        exact h.inside hin True.intro rfl (copy_piece hsound hi)
      · exact h.inside hin True.intro rfl True.intro
  | write value i reply =>
      have hin : (pc t).Locks := by rw [hpc]; exact True.intro
      rw [hpc] at hsound hnext
      rw [next] at hnext
      split at hnext
      · rename_i hi
        obtain ⟨rfl, rfl⟩ := Prod.mk.inj (Option.some.inj hnext)
        exact h.inside hin True.intro rfl (copy_piece hsound hi)
      · obtain ⟨rfl, rfl⟩ := Prod.mk.inj (Option.some.inj hnext)
        exact h.inside hin True.intro rfl True.intro
  | unlock reply =>
      have hin : (pc t).Locks := by rw [hpc]; exact True.intro
      rw [hpc] at hnext
      obtain ⟨rfl, rfl⟩ := Prod.mk.inj (Option.some.inj hnext)
      exact h.release hin id
  | returned reply =>
      rw [hpc] at hnext
      cases hnext

theorem inv_step {l : Label ι n β} (h : Inv s.object s.pc)
    (hstep : step unassigned s l = some s') : Inv s'.object s'.pc := by
  cases l with
  | call t op =>
      rw [step] at hstep
      split at hstep
      · rename_i hpc
        obtain rfl := Option.some.inj hstep
        exact h.outside (by rw [hpc]; exact id) id
      · cases hstep
  | step t =>
      obtain ⟨⟨a, p⟩, hnext, rfl⟩ := Option.map_eq_some_iff.mp hstep
      exact inv_next h hnext
  | ret t =>
      rw [step] at hstep
      split at hstep
      · rename_i reply hpc
        obtain rfl := Option.some.inj hstep
        exact h.outside (by rw [hpc]; exact id) id
      · cases hstep

theorem inv_of_reachable (h : (system ι unassigned).Reachable (fun _ _ => True) s) :
    Inv s.object s.pc := by
  refine h.invariant (P := fun s => Inv s.object s.pc) ?_ fun s l s' hinv _ => inv_step hinv
  rintro s ⟨hopen, hidle⟩
  have hnone (t : ι) : ¬(s.pc t).Locks := by
    rw [hidle t]
    exact id
  refine ⟨fun t _ ht => absurd ht (hnone t), ?_, fun t => Point.sound_of_not_locks (hnone t)⟩
  rw [hopen]
  constructor
  · intro hzero
    cases hzero
  · rintro ⟨t, ht⟩
    exact absurd ht (hnone t)

/-- A thread gets the lock; a store takes effect there. -/
theorem run_enter (hinv : Inv s.object s.pc) (h : Represents s b) (hpc : s.pc t = .lock op)
    (hopen : s.object.lock ≠ 1) :
    ∃ b', AtomicObject.Run Op.apply b (actions s (.step t)) b' ∧
      Represents ⟨{ s.object with lock := 1 }, Function.update s.pc t (enter unassigned op)⟩ b' := by
  have hout : ¬(s.pc t).Locks := by rw [hpc]; exact id
  have hothers (u : ι) (_ : u ≠ t) : ¬(s.pc u).Locks :=
    fun hu => hopen (hinv.lock_eq.mpr ⟨u, hu⟩)
  have hb : b.value = s.object.value :=
    h.value.eq_value hothers (Point.pending_eq_none hout)
  have hcalled := h.pc t
  rw [hpc] at hcalled
  have hstore : (∃ val, op = .store val) ∨ enter unassigned op = .read op 0 unassigned := by
    cases op
    case store val => exact Or.inl ⟨val, rfl⟩
    all_goals exact Or.inr rfl
  rcases hstore with ⟨val, rfl⟩ | hread
  · refine ⟨_, run_act (by rw [hpc]; simpa [Point.takesEffect] using hopen) hcalled, ?_⟩
    exact h.update (current_alone hothers (Or.inl rfl)) (Or.inl rfl) rfl
  · refine ⟨b, ?_, ?_⟩
    · apply run_silent
      rw [hpc]
      cases op <;> first | rfl | cases hread
    · rw [hread]
      exact h.silent (current_alone hothers (Or.inr ⟨rfl, hb⟩)) (Or.inl rfl) (by rw [hpc]; rfl)

/-- A step of a thread that takes no effect, or lets the call take effect. -/
theorem run_next {a : Object n β} {p : Point n β} (hinv : Inv s.object s.pc)
    (h : Represents s b) (hnext : next unassigned (s.pc t) s.object = some (a, p)) :
    ∃ b', AtomicObject.Run Op.apply b (actions s (.step t)) b' ∧
      Represents ⟨a, Function.update s.pc t p⟩ b' := by
  have hsound := hinv.sound t
  have habstract := h.pc t
  cases hpc : s.pc t with
  | idle =>
      rw [hpc] at hnext
      cases hnext
  | lock op =>
      rw [hpc, next] at hnext
      obtain ⟨rfl, rfl⟩ := Prod.mk.inj (Option.some.inj hnext)
      split_ifs with hlock
      · have hout : ¬(s.pc t).Locks := by rw [hpc]; exact id
        refine ⟨b, run_silent ?_, ?_⟩
        · rw [hpc]
          cases op <;> simp [Point.takesEffect, hlock]
        · exact h.silent (h.value.outside hout id rfl) (Or.inl rfl) (by rw [hpc])
      · exact run_enter hinv h hpc hlock
  | read op i old =>
      have hin : (s.pc t).Locks := by rw [hpc]; exact True.intro
      have hothers (u : ι) (hu : u ≠ t) : ¬(s.pc u).Locks := hinv.not_locks hin hu
      have hb : b.value = s.object.value :=
        h.value.eq_value hothers (by rw [hpc]; rfl)
      rw [hpc] at habstract hsound hnext
      obtain ⟨rfl, rfl⟩ := Prod.mk.inj (Option.some.inj hnext)
      split_ifs with hi
      · refine ⟨b, run_silent (by rw [hpc]; simpa [Point.takesEffect] using hi), ?_⟩
        exact h.silent (current_alone hothers (Or.inr ⟨rfl, hb⟩)) (Or.inl rfl)
          (by rw [hpc]; rfl)
      · obtain rfl : old = s.object.value := copied hsound hi
        obtain ⟨hanswer, hpending⟩ := afterRead_spec s.object.value op
        refine ⟨_, run_act (by rw [hpc]; simpa [Point.takesEffect] using hi) habstract, ?_⟩
        rw [AtomicObject.State.act, hb]
        exact h.update (current_alone hothers hpending) (Or.inl rfl) hanswer
  | readExpected i expected =>
      have hin : (s.pc t).Locks := by rw [hpc]; exact True.intro
      have hothers (u : ι) (hu : u ≠ t) : ¬(s.pc u).Locks := hinv.not_locks hin hu
      have hb : b.value = s.object.value :=
        h.value.eq_value hothers (by rw [hpc]; rfl)
      rw [hpc] at hsound hnext
      obtain ⟨rfl, rfl⟩ := Prod.mk.inj (Option.some.inj hnext)
      refine ⟨b, run_silent (by rw [hpc]; rfl), ?_⟩
      split_ifs with hi
      · exact h.silent (current_alone hothers (Or.inr ⟨rfl, hb⟩)) (Or.inl rfl)
          (by rw [hpc]; rfl)
      · obtain rfl : expected = s.object.value := copied hsound hi
        exact h.silent (current_alone hothers (Or.inr ⟨rfl, hb⟩)) (Or.inl rfl)
          (by rw [hpc]; rfl)
  | write value i reply =>
      have hin : (s.pc t).Locks := by rw [hpc]; exact True.intro
      have hothers (u : ι) (hu : u ≠ t) : ¬(s.pc u).Locks := hinv.not_locks hin hu
      have hb : b.value = value := h.value.of_pending t value (by rw [hpc]; rfl)
      rw [hpc] at hsound hnext
      rw [next] at hnext
      refine ⟨b, run_silent (by rw [hpc]; rfl), ?_⟩
      split at hnext
      · obtain ⟨rfl, rfl⟩ := Prod.mk.inj (Option.some.inj hnext)
        exact h.silent (current_alone hothers (Or.inl (congrArg some hb.symm))) (Or.inr hothers)
          (by rw [hpc]; rfl)
      · rename_i hi
        obtain ⟨rfl, rfl⟩ := Prod.mk.inj (Option.some.inj hnext)
        have hstored : s.object.value = value := copied hsound hi
        exact h.silent (current_alone hothers (Or.inr ⟨rfl, hb.trans hstored.symm⟩))
          (Or.inl rfl) (by rw [hpc]; rfl)
  | unlock reply =>
      have hin : (s.pc t).Locks := by rw [hpc]; exact True.intro
      have hothers (u : ι) (hu : u ≠ t) : ¬(s.pc u).Locks := hinv.not_locks hin hu
      have hb : b.value = s.object.value :=
        h.value.eq_value hothers (by rw [hpc]; rfl)
      rw [hpc] at hnext
      obtain ⟨rfl, rfl⟩ := Prod.mk.inj (Option.some.inj hnext)
      refine ⟨b, run_silent (by rw [hpc]; rfl), ?_⟩
      exact h.silent (current_alone hothers (Or.inr ⟨rfl, hb⟩)) (Or.inl rfl)
        (by rw [hpc]; rfl)
  | returned reply =>
      rw [hpc] at hnext
      cases hnext

theorem run_step {l : Label ι n β} (hinv : Inv s.object s.pc) (h : Represents s b)
    (hstep : step unassigned s l = some s') :
    ∃ b', AtomicObject.Run Op.apply b (actions s l) b' ∧ Represents s' b' := by
  cases l with
  | call t op =>
      rw [step] at hstep
      split at hstep
      · rename_i hpc
        obtain rfl := Option.some.inj hstep
        have hidle := h.pc t
        rw [hpc] at hidle
        refine ⟨_, AtomicObject.Run.call hidle rfl, ?_⟩
        exact h.update (h.value.outside (by rw [hpc]; exact id) id rfl) (Or.inl rfl) rfl
      · cases hstep
  | step t =>
      obtain ⟨⟨a, p⟩, hnext, rfl⟩ := Option.map_eq_some_iff.mp hstep
      exact run_next hinv h hnext
  | ret t =>
      rw [step] at hstep
      split at hstep
      · rename_i reply hpc
        obtain rfl := Option.some.inj hstep
        have hanswered := h.pc t
        rw [hpc] at hanswered
        refine ⟨_, ?_, h.update (h.value.outside (by rw [hpc]; exact id) id rfl) (Or.inl rfl) rfl⟩
        rw [actions, hpc]
        exact AtomicObject.Run.ret hanswered rfl
      · cases hstep

/-- In every run one thread at most works on the object, and the run, read by
its calls and returns, is one of an object with atomic operations. -/
theorem locked_atomic (unassigned : Value n β) (s : State ι n β) (ls : List (Label ι n β))
    (s' : State ι n β) (hstart : (system ι unassigned).start s)
    (h : (system ι unassigned).Path (fun _ _ => True) s ls s') :
    (∀ t u, (s'.pc t).Locks → (s'.pc u).Locks → t = u) ∧
      ∃ b, AtomicObject.Run Op.apply ⟨s.object.value, fun _ => .idle⟩
        ((system ι unassigned).reading actions s ls) b ∧ Represents s' b := by
  refine ⟨(inv_of_reachable ⟨s, ls, hstart, h⟩).exclusive, ?_⟩
  refine h.simulate (fun s l s' b hreach hrel _ hstep =>
    run_step (inv_of_reachable hreach) hrel hstep) hstart ⟨⟨?_, fun _ => rfl⟩, ?_⟩
  · intro t value hpending
    rw [hstart.2 t] at hpending
    cases hpending
  · intro t
    rw [hstart.2 t]
    rfl

/-- Thread 1 spins while thread 0 exchanges 1 and 2 for 7 and 8, and then does
not find what it expects. -/
theorem locked_atomic_two :
    ∃ (s' : State (Fin 2) 2 ℕ) (ls : List (Label (Fin 2) 2 ℕ))
      (b : AtomicObject.State (Fin 2) (Op 2 ℕ) (Reply 2 ℕ) (Value 2 ℕ)),
      s'.object.value = ![7, 8] ∧ ls.length = 19 ∧
      AtomicObject.Run Op.apply ⟨![1, 2], fun _ => .idle⟩
        ((system (Fin 2) ![0, 0]).reading actions ⟨⟨![1, 2], 0⟩, fun _ => .idle⟩ ls) b ∧
      Represents s' b := by
  obtain ⟨s', hexec, hvalue⟩ : ∃ s' : State (Fin 2) 2 ℕ,
      (system (Fin 2) ![0, 0]).exec (fun _ _ => True) ⟨⟨![1, 2], 0⟩, fun _ => .idle⟩
        [.call 0 (.exchange ![7, 8]), .step 0, .call 1 (.compareExchange ![1, 2] ![3, 4]),
          .step 1, .step 0, .step 0, .step 0, .step 0, .step 1, .step 0, .step 0, .step 0,
          .ret 0, .step 1, .step 1, .step 1, .step 1, .step 1, .step 1] = some s' ∧
      s'.object.value = ![7, 8] :=
    ⟨_, rfl, by decide⟩
  obtain ⟨-, b, hrun, hrep⟩ :=
    locked_atomic ![0, 0] _ _ s' ⟨rfl, fun _ => rfl⟩ (System.path_of_exec hexec)
  exact ⟨s', _, b, hvalue, rfl, hrun, hrep⟩

end Runs

end Libhipcxx.Atomic.Locked
