import Libhipcxx.Support.Transition
import Mathlib.Data.Fintype.Basic
import Mathlib.Data.List.Rotate
import Mathlib.Logic.Function.Basic
import Mathlib.Tactic.SplitIfs

/-!
# Locking several mutexes

`lock` takes any number of mutexes, in any order that the caller names them: it
locks one, tries the others in turn, and if one refuses, releases all and begins
again with the one that refused.  `__lock_first` keeps the place to begin at, and
rotates its arguments by two where that is neither the first nor the second.
-/

namespace Libhipcxx.Mutex.LockAll

open Transition

/-- Before the `switch` of `__lock_first`; before `try_lock` looks at the next
mutex, or ends, with the first `k` of the order held; after the mutex at `r` has
refused, with the first `k` still held; and after `lock`. -/
inductive Point (M : Type) where
  | idle
  | lockFirst (i : ℕ) (args : List M)
  | tryLock (i : ℕ) (args : List M) (k : ℕ)
  | unwind (i : ℕ) (args : List M) (r k : ℕ)
  | holds (ms : List M)
  deriving DecidableEq

/-- Any `try_lock` may refuse. -/
inductive Label (ι M : Type) where
  | lock (t : ι) (args : List M)
  | step (t : ι)
  | refuse (t : ι)
  | unlock (t : ι) (m : M)
  deriving DecidableEq

structure State (ι M : Type) where
  owner : M → Option ι
  point : ι → Point M

variable {ι M : Type} [DecidableEq ι] [DecidableEq M]

/-- `case 0` locks `l0` and tries `l1, l2, ...`; `case 1` locks `l1` and tries
`l2, ..., l0`. -/
def order (i : ℕ) (args : List M) : List M := args.rotate i

/-- The argument to begin at, where the mutex at place `r` of the order refused;
`try_lock` has returned its place among those it was called with. -/
def nextFirst (i n r : ℕ) : ℕ :=
  let result := r - 1
  if i = 0 then result + 1
  else if result = n - 2 then 0
  else result + 2

def advance (t : ι) (owner : M → Option ι) : Point M → Option ((M → Option ι) × Point M)
  | .idle => none
  | .lockFirst i args =>
      if 2 ≤ i then some (owner, .lockFirst (i - 2) (args.rotate 2))
      else
        match (order i args)[0]? with
        | none => none
        | some m =>
            if owner m = none then some (Function.update owner m (some t), .tryLock i args 1)
            else none
  | .tryLock i args k =>
      match (order i args)[k]? with
      | none => some (owner, .holds (order i args))
      | some m =>
          if owner m = none then some (Function.update owner m (some t), .tryLock i args (k + 1))
          else some (owner, .unwind i args k k)
  | .unwind i args r 0 => some (owner, .lockFirst (nextFirst i args.length r) args)
  | .unwind i args r (k + 1) =>
      match (order i args)[k]? with
      | none => none
      | some m => some (Function.update owner m none, .unwind i args r k)
  | .holds [] => some (owner, .idle)
  | .holds (_ :: _) => none

/-- The mutexes of one call are distinct, and a thread that calls has none. -/
def next (t : ι) (owner : M → Option ι) : Label ι M → Point M → Option ((M → Option ι) × Point M)
  | .lock _ args, .idle =>
      if args ≠ [] ∧ args.Nodup then some (owner, .lockFirst 0 args) else none
  | .step _, p => advance t owner p
  | .refuse _, .tryLock i args k =>
      if k < args.length then some (owner, .unwind i args k k) else none
  | .unlock _ m, .holds ms =>
      if m ∈ ms then some (Function.update owner m none, .holds (ms.erase m)) else none
  | _, _ => none

def Label.thread : Label ι M → ι
  | .lock t _ | .step t | .refuse t | .unlock t _ => t

def system (ι M : Type) [DecidableEq ι] [DecidableEq M] : System (State ι M) (Label ι M) where
  start s := (∀ m, s.owner m = none) ∧ ∀ t, s.point t = .idle
  step s l :=
    (next l.thread s.owner l (s.point l.thread)).map fun (owner, p) =>
      ⟨owner, Function.update s.point l.thread p⟩

/-! ## What a thread holds -/

namespace Point

def held : Point M → List M
  | .idle | .lockFirst _ _ => []
  | .tryLock i args k | .unwind i args _ k => (order i args).take k
  | .holds ms => ms

/-- The places are places of the arguments. -/
def Valid : Point M → Prop
  | .idle => True
  | .lockFirst i args => args.Nodup ∧ i < args.length
  | .tryLock i args k => args.Nodup ∧ i < 2 ∧ i < args.length ∧ 0 < k ∧ k ≤ args.length
  | .unwind i args r k => args.Nodup ∧ i < 2 ∧ i < args.length ∧ 0 < r ∧ r < args.length ∧ k ≤ r
  | .holds ms => ms.Nodup

/-- The thread has no mutex, and is not at one of the loops over the others. -/
def Quiet : Point M → Prop
  | .idle | .lockFirst _ _ => True
  | .tryLock _ _ _ | .unwind _ _ _ _ | .holds _ => False

end Point

/-- A step takes one mutex that is free, releases one of the thread, or neither. -/
inductive Effect (t : ι) (owner : M → Option ι) (p : Point M) : (M → Option ι) → Point M → Prop
  | keep {p'} (hheld : ∀ m, m ∈ p'.held ↔ m ∈ p.held) : Effect t owner p owner p'
  | take {p' m} (hfree : owner m = none) (hheld : ∀ x, x ∈ p'.held ↔ x = m ∨ x ∈ p.held) :
      Effect t owner p (Function.update owner m (some t)) p'
  | release {p' m} (hm : m ∈ p.held) (hheld : ∀ x, x ∈ p'.held ↔ x ≠ m ∧ x ∈ p.held) :
      Effect t owner p (Function.update owner m none) p'

variable {t u : ι} {owner owner' : M → Option ι} {p p' : Point M} {i k r n : ℕ} {args ms : List M}
  {m : M}

omit [DecidableEq M] in
theorem mem_take_succ {l : List M} (h : l[k]? = some m) (x : M) :
    x ∈ l.take (k + 1) ↔ x = m ∨ x ∈ l.take k := by
  rw [List.take_add_one, h, Option.toList_some, List.mem_append, List.mem_singleton, or_comm]

omit [DecidableEq M] in
theorem not_mem_take {l : List M} (hl : l.Nodup) (h : l[k]? = some m) : m ∉ l.take k := by
  have hnodup : (l.take (k + 1)).Nodup := hl.sublist (List.take_sublist _ _)
  rw [List.take_add_one, h, Option.toList_some] at hnodup
  intro hm
  exact (List.nodup_append.mp hnodup).2.2 m hm m (List.mem_singleton_self m) rfl

theorem nextFirst_lt (hr : 0 < r) (hrn : r < n) : nextFirst i n r < n := by
  simp only [nextFirst]
  split_ifs
  · omega
  · omega
  · omega

omit [DecidableEq ι] in
theorem advance_effect (hvalid : p.Valid) (h : advance t owner p = some (owner', p')) :
    Effect t owner p owner' p' ∧ p'.Valid := by
  cases p with
  | idle => cases h
  | lockFirst i args =>
    obtain ⟨hnodup, hi⟩ := hvalid
    rw [advance] at h
    split_ifs at h with htwo
    · cases h
      refine ⟨Effect.keep fun _ => Iff.rfl, List.nodup_rotate.mpr hnodup, ?_⟩
      rw [List.length_rotate]
      omega
    · split at h
      · cases h
      · rename_i m hm
        split_ifs at h with hfree
        cases h
        refine ⟨Effect.take hfree fun x => mem_take_succ hm x, hnodup, by omega, hi, by omega, ?_⟩
        omega
  | tryLock i args k =>
    obtain ⟨hnodup, hi, hin, hk, hkn⟩ := hvalid
    rw [advance] at h
    split at h
    · rename_i hend
      cases h
      have hlength : (order i args).length ≤ k := List.getElem?_eq_none_iff.mp hend
      refine ⟨Effect.keep fun m => ?_, List.nodup_rotate.mpr hnodup⟩
      rw [Point.held, Point.held, List.take_of_length_le hlength]
    · rename_i m hm
      have hlt : k < args.length := by
        have hlength := (List.getElem?_eq_some_iff.mp hm).1
        rwa [order, List.length_rotate] at hlength
      split_ifs at h with hfree
      · cases h
        exact ⟨Effect.take hfree fun x => mem_take_succ hm x, hnodup, hi, hin, Nat.succ_pos k, hlt⟩
      · cases h
        exact ⟨Effect.keep fun _ => Iff.rfl, hnodup, hi, hin, hk, hlt, le_rfl⟩
  | unwind i args r k =>
    obtain ⟨hnodup, hi, hin, hr, hrn, hkr⟩ := hvalid
    cases k with
    | zero =>
      cases h
      refine ⟨Effect.keep fun m => ?_, hnodup, nextFirst_lt hr hrn⟩
      rw [Point.held, Point.held, List.take_zero]
    | succ k =>
      rw [advance] at h
      split at h
      · cases h
      · rename_i m hm
        cases h
        have hnot := not_mem_take (List.nodup_rotate.mpr hnodup) hm
        refine ⟨Effect.release ((mem_take_succ hm m).mpr (Or.inl rfl)) fun x => ?_, hnodup, hi, hin,
          hr, hrn, Nat.le_of_succ_le hkr⟩
        rw [Point.held, Point.held, mem_take_succ hm]
        constructor
        · intro hx
          refine ⟨?_, Or.inr hx⟩
          rintro rfl
          exact hnot hx
        · rintro ⟨hne, hx⟩
          exact hx.resolve_left hne
  | holds ms =>
    cases ms with
    | nil =>
      cases h
      exact ⟨Effect.keep fun _ => Iff.rfl, trivial⟩
    | cons => cases h

omit [DecidableEq ι] in
theorem next_step (p : Point M) : next t owner (.step u) p = advance t owner p := by
  cases p <;> rfl

omit [DecidableEq ι] in
theorem next_effect {l : Label ι M} (hvalid : p.Valid) (h : next t owner l p = some (owner', p')) :
    Effect t owner p owner' p' ∧ p'.Valid := by
  cases l with
  | step => exact advance_effect hvalid ((next_step p).symm.trans h)
  | lock _ args =>
    cases p with
    | idle =>
      obtain ⟨⟨hne, hnodup⟩, heq⟩ := Option.ite_none_right_eq_some.mp h
      cases heq
      exact ⟨Effect.keep fun _ => Iff.rfl, hnodup, List.length_pos_iff.mpr hne⟩
    | _ => cases h
  | refuse =>
    cases p with
    | tryLock i args k =>
      obtain ⟨hk, heq⟩ := Option.ite_none_right_eq_some.mp h
      cases heq
      obtain ⟨hnodup, hi, hin, hpos, -⟩ := hvalid
      exact ⟨Effect.keep fun _ => Iff.rfl, hnodup, hi, hin, hpos, hk, le_rfl⟩
    | _ => cases h
  | unlock _ m =>
    cases p with
    | holds ms =>
      obtain ⟨hm, heq⟩ := Option.ite_none_right_eq_some.mp h
      cases heq
      have hnodup : ms.Nodup := hvalid
      exact ⟨Effect.release hm fun x => hnodup.mem_erase_iff, hnodup.erase m⟩
    | _ => cases h

/-! ## Who owns what -/

/-- The owner of a mutex is the thread that holds it. -/
structure Accounted (s : State ι M) : Prop where
  valid : ∀ t, (s.point t).Valid
  owner : ∀ t m, s.owner m = some t ↔ m ∈ (s.point t).held

variable {s s' : State ι M}

omit [DecidableEq M] [DecidableEq ι] in
theorem Accounted.not_mem_of_free (h : Accounted s) (hm : s.owner m = none) :
    m ∉ (s.point t).held := by
  intro hheld
  rw [(h.owner t m).mpr hheld] at hm
  cases hm

theorem Accounted.effect (h : Accounted s) (hvalid : p'.Valid)
    (heffect : Effect t s.owner (s.point t) owner' p') :
    Accounted ⟨owner', Function.update s.point t p'⟩ := by
  refine ⟨fun u => ?_, fun u x => ?_⟩
  · by_cases hut : u = t
    · simpa only [hut, Function.update_self] using hvalid
    · simpa only [Function.update_of_ne hut] using h.valid u
  · cases heffect with
    | keep hheld =>
      by_cases hut : u = t
      · simp only [hut, Function.update_self, hheld]
        exact h.owner t x
      · simp only [Function.update_of_ne hut]
        exact h.owner u x
    | @take _ m hfree hheld =>
      by_cases hx : x = m
      · simp only [hx, Function.update_self, Option.some.injEq]
        by_cases hut : u = t
        · simp only [hut, Function.update_self, hheld, true_or]
        · simp only [Function.update_of_ne hut, h.not_mem_of_free hfree, iff_false]
          exact Ne.symm hut
      · simp only [Function.update_of_ne hx, h.owner]
        by_cases hut : u = t
        · simp only [hut, Function.update_self, hheld, hx, false_or]
        · simp only [Function.update_of_ne hut]
    | @release _ m hm hheld =>
      by_cases hx : x = m
      · simp only [hx, Function.update_self, reduceCtorEq, false_iff]
        by_cases hut : u = t
        · simp only [hut, Function.update_self, hheld, ne_eq, not_true_eq_false, false_and,
            not_false_eq_true]
        · simp only [Function.update_of_ne hut]
          intro hu
          have hboth := ((h.owner u m).mpr hu).symm.trans ((h.owner t m).mpr hm)
          exact hut (Option.some.inj hboth)
      · simp only [Function.update_of_ne hx, h.owner]
        by_cases hut : u = t
        · simp only [hut, Function.update_self, hheld, ne_eq, hx, not_false_eq_true, true_and]
        · simp only [Function.update_of_ne hut]

theorem step_accounted (h : Accounted s) {l : Label ι M} (hstep : (system ι M).step s l = some s') :
    Accounted s' := by
  obtain ⟨⟨owner', p'⟩, hnext, rfl⟩ := Option.map_eq_some_iff.mp hstep
  obtain ⟨heffect, hvalid⟩ := next_effect (h.valid l.thread) hnext
  exact h.effect hvalid heffect

abbrev Reachable (s : State ι M) : Prop := (system ι M).Reachable (fun _ _ => True) s

theorem reachable_accounted (h : Reachable s) : Accounted s := by
  refine h.invariant (P := Accounted) ?_ fun _ _ _ hs _ hstep => step_accounted hs hstep
  rintro s ⟨howner, hpoint⟩
  refine ⟨fun t => ?_, fun t m => ?_⟩
  · rw [hpoint]
    trivial
  · rw [howner, hpoint]
    constructor
    · intro heq
      cases heq
    · intro hm
      cases hm

/-! ## Every call can end -/

namespace Point

/-- The call has not come back. -/
def Pending : Point M → Prop
  | .lockFirst _ _ | .tryLock _ _ _ | .unwind _ _ _ _ => True
  | .idle | .holds _ => False

/-- The steps to the next quiet point are fewer than this. -/
def remaining : Point M → ℕ
  | .idle | .lockFirst _ _ => 0
  | .tryLock _ args k => 2 * args.length + 2 - k
  | .unwind _ _ _ k => k + 1
  | .holds ms => ms.length + 1

omit [DecidableEq M] in
theorem Quiet.held (h : p.Quiet) : p.held = [] := by
  cases p with
  | idle => rfl
  | lockFirst => rfl
  | _ => exact h.elim

end Point

/-- A run without a condition. -/
abbrev Run (s : State ι M) (ls : List (Label ι M)) (s' : State ι M) : Prop :=
  System.Path (system ι M) (fun _ _ => True) s ls s'

omit [DecidableEq M] [DecidableEq ι] in
/-- Where all others are quiet, what the thread does not hold is free. -/
theorem Accounted.free (h : Accounted s) (hothers : ∀ u, u ≠ t → (s.point u).Quiet)
    (hm : m ∉ (s.point t).held) : s.owner m = none := by
  cases howner : s.owner m with
  | none => rfl
  | some u =>
    have hheld := (h.owner u m).mp howner
    by_cases hut : u = t
    · exact absurd (hut ▸ hheld) hm
    · rw [(hothers u hut).held] at hheld
      cases hheld

/-- The mutex that the thread blocks on until it is free. -/
def Point.awaits : Point M → Option M
  | .lockFirst i args => if 2 ≤ i then none else (order i args)[0]?
  | .idle | .tryLock _ _ _ | .unwind _ _ _ _ | .holds _ => none

end Libhipcxx.Mutex.LockAll
