import Libhipcxx.Support.Monitor

/-!
# The recursive timed mutex

`recursive_timed_mutex` keeps the thread that has locked it and how often.  A
thread that finds it locked by another waits on one condition variable.  The one
that unlocks it for the last time releases the mutex before it notifies, and
notifies one thread only.
-/

namespace Libhipcxx.Mutex.Recursive

open Transition Monitor

/-- `numeric_limits<size_t>::max()`. -/
def limit : ℕ := 0xffffffffffffffff

structure Lock (ι : Type) where
  count : ℕ
  id : Option ι
  deriving DecidableEq

/-- Each point knows how often the thread has locked the mutex.  The flag of a
timed wait says that the time has passed; `notify` is between the release of
`__m_` and `notify_one`. -/
inductive Point where
  | idle (held : ℕ)
  | lock (held : ℕ)
  | lockUntil (held : ℕ) (past : Bool)
  | notify (held : ℕ)
  deriving DecidableEq

/-- What an idle thread calls; `go` is any other step.  A `try_lock` may find
`__m_` taken. -/
inductive Call where
  | lock
  | tryLock
  | tryLockBusy
  | tryLockUntil (past : Bool)
  | unlock
  | go
  deriving DecidableEq

variable {ι : Type} [DecidableEq ι]

abbrev Result (ι : Type) := Lock ι × Next Unit Point × Option (Notify Unit)

/-- `while (__count_ != 0) __cv_.wait(lk)`, and what follows. -/
def waitLock (t : ι) (held : ℕ) (m : Lock ι) : Result ι :=
  if m.count ≠ 0 then (m, .wait () (.lock held), none)
  else (⟨1, some t⟩, .goto (.idle (held + 1)), none)

/-- The limit reached is an exception. -/
def lock (t : ι) (held : ℕ) (m : Lock ι) : Result ι :=
  if some t = m.id then
    if m.count = limit then (m, .goto (.idle held), none)
    else ({ m with count := m.count + 1 }, .goto (.idle (held + 1)), none)
  else waitLock t held m

def tryLock (t : ι) (held : ℕ) (m : Lock ι) : Result ι :=
  if m.count = 0 ∨ some t = m.id then
    if m.count = limit then (m, .goto (.idle held), none)
    else (⟨m.count + 1, some t⟩, .goto (.idle (held + 1)), none)
  else (m, .goto (.idle held), none)

/-- The loop of `try_lock_until`, and what follows. -/
def waitLockUntil (t : ι) (held : ℕ) (past : Bool) (m : Lock ι) : Result ι :=
  if past = false ∧ m.count ≠ 0 then (m, .wait () (.lockUntil held false), none)
  else if m.count = 0 then (⟨1, some t⟩, .goto (.idle (held + 1)), none)
  else (m, .goto (.idle held), none)

def tryLockUntil (t : ι) (held : ℕ) (past : Bool) (m : Lock ι) : Result ι :=
  if some t = m.id then
    if m.count = limit then (m, .goto (.idle held), none)
    else ({ m with count := m.count + 1 }, .goto (.idle (held + 1)), none)
  else waitLockUntil t held past m

/-- `--__count_` wraps around below zero. -/
def unlock (held : ℕ) (m : Lock ι) : Result ι :=
  let count := (m.count + limit) % (limit + 1)
  if count = 0 then (⟨0, none⟩, .goto (.notify (held - 1)), none)
  else (⟨count, m.id⟩, .goto (.idle (held - 1)), none)

/-- Only a thread that has locked the mutex unlocks it. -/
def block (t : ι) : Point → Call → Lock ι → Option (Result ι)
  | .idle held, .lock, m => some (lock t held m)
  | .idle held, .tryLock, m => some (tryLock t held m)
  | .idle held, .tryLockBusy, m => some (m, .goto (.idle held), none)
  | .idle held, .tryLockUntil past, m => some (tryLockUntil t held past m)
  | .idle held, .unlock, m => if 0 < held then some (unlock held m) else none
  | .lock held, .go, m => some (waitLock t held m)
  | .lockUntil held past, .go, m => some (waitLockUntil t held past m)
  | .notify held, .go, m => some (m, .goto (.idle held), some (.one ()))
  | _, _, _ => none

def timeout : Point → Option Point
  | .lockUntil held _ => some (.lockUntil held true)
  | _ => none

def program (ι : Type) [DecidableEq ι] : Program ι (Lock ι) Unit Point Call where
  block := block
  timeout := timeout

def start (ι : Type) : Monitor.State ι (Lock ι) Unit Point where
  shared := ⟨0, none⟩
  place _ := .ready (.idle 0)

/-! ## One step -/

namespace Point

def held : Point → ℕ
  | .idle held | .lock held | .lockUntil held _ | .notify held => held

/-- The thread will look at the count, or notify one that will. -/
def Active : Point → Prop
  | .lock _ | .lockUntil _ _ | .notify _ => True
  | .idle _ => False

end Point

/-- What a step does to the lock and to what the thread holds. -/
inductive Effect (t : ι) (m : Lock ι) : Point → Lock ι → Next Unit Point → Option (Notify Unit) → Prop
  | refuse {p held} (hp : p.held = held) (hpoint : ¬p.Active ∨ m.count ≠ 0) :
      Effect t m p m (.goto (.idle held)) none
  | wait {p p'} (hp : p'.held = p.held) (hp' : p'.Active) (hid : p.Active ∨ m.id ≠ some t)
      (hcount : m.count ≠ 0) : Effect t m p m (.wait () p') none
  | first {p} (hcount : m.count = 0) :
      Effect t m p ⟨1, some t⟩ (.goto (.idle (p.held + 1))) none
  | again {held} (hid : m.id = some t) (hcount : m.count < limit) :
      Effect t m (.idle held) ⟨m.count + 1, m.id⟩ (.goto (.idle (held + 1))) none
  | last {held} (hcount : (m.count + limit) % (limit + 1) = 0) :
      Effect t m (.idle (held + 1)) ⟨0, none⟩ (.goto (.notify held)) none
  | unlock {held} (hcount : (m.count + limit) % (limit + 1) ≠ 0) :
      Effect t m (.idle (held + 1)) ⟨(m.count + limit) % (limit + 1), m.id⟩ (.goto (.idle held)) none
  | notify {held} : Effect t m (.notify held) m (.goto (.idle held)) (some (.one ()))

variable {t u : ι} {p p' : Point} {m m' : Lock ι} {next : Next Unit Point}
  {n : Option (Notify Unit)} {held : ℕ}

def Effective (t : ι) (m : Lock ι) (p : Point) (x : Result ι) : Prop :=
  Effect t m p x.1 x.2.1 x.2.2

omit [DecidableEq ι] in
theorem waitLock_effective (hp : p.held = held) (hid : p.Active ∨ m.id ≠ some t) :
    Effective t m p (waitLock t held m) := by
  rw [waitLock]
  split_ifs with hcount
  · exact Effect.wait hp.symm trivial hid hcount
  · exact hp ▸ Effect.first (not_not.mp hcount)

omit [DecidableEq ι] in
theorem waitLockUntil_effective {past : Bool} (hp : p.held = held) (hid : p.Active ∨ m.id ≠ some t) :
    Effective t m p (waitLockUntil t held past m) := by
  rw [waitLockUntil]
  split_ifs with hwait hcount
  · exact Effect.wait hp.symm trivial hid hwait.2
  · exact hp ▸ Effect.first hcount
  · exact Effect.refuse hp (Or.inr hcount)

/-- A thread that has the mutex already, in `lock` and in `try_lock_until`. -/
theorem relock_effective {x : Result ι} (hbound : m.count ≤ limit)
    (hx : m.id ≠ some t → Effective t m (.idle held) x) :
    Effective t m (.idle held)
      (if some t = m.id then
        if m.count = limit then (m, .goto (.idle held), none)
        else ({ m with count := m.count + 1 }, .goto (.idle (held + 1)), none)
      else x) := by
  split_ifs with hid hcount
  · exact Effect.refuse rfl (Or.inl id)
  · exact Effect.again hid.symm (lt_of_le_of_ne hbound hcount)
  · exact hx fun heq => hid heq.symm

theorem tryLock_effective (hbound : m.count ≤ limit) :
    Effective t m (.idle held) (tryLock t held m) := by
  rw [tryLock]
  split_ifs with hopen hcount
  · exact Effect.refuse rfl (Or.inl id)
  · rcases hopen with hzero | hid
    · rw [hzero]
      exact Effect.first hzero
    · rw [hid]
      exact Effect.again hid.symm (lt_of_le_of_ne hbound hcount)
  · exact Effect.refuse rfl (Or.inl id)

omit [DecidableEq ι] in
theorem unlock_effective : Effective t m (.idle (held + 1)) (unlock (held + 1) m) := by
  simp only [unlock]
  split_ifs with hcount
  · exact Effect.last hcount
  · exact Effect.unlock hcount

theorem block_effective {c : Call} {x : Result ι} (hbound : m.count ≤ limit)
    (h : block t p c m = some x) : Effective t m p x := by
  cases p with
  | idle held =>
    cases c with
    | lock =>
      exact Option.some.inj h ▸ relock_effective hbound fun hid =>
        waitLock_effective rfl (Or.inr hid)
    | tryLock => exact Option.some.inj h ▸ tryLock_effective hbound
    | tryLockBusy => exact Option.some.inj h ▸ Effect.refuse rfl (Or.inl id)
    | tryLockUntil past =>
      exact Option.some.inj h ▸ relock_effective hbound fun hid =>
        waitLockUntil_effective rfl (Or.inr hid)
    | unlock =>
      obtain ⟨hheld, heq⟩ := Option.ite_none_right_eq_some.mp h
      obtain ⟨held, rfl⟩ := Nat.exists_eq_succ_of_ne_zero hheld.ne'
      exact Option.some.inj heq ▸ unlock_effective
    | go => cases h
  | lock held =>
    cases c with
    | go =>
      exact Option.some.inj h ▸ waitLock_effective (p := .lock held) rfl (Or.inl trivial)
    | _ => cases h
  | lockUntil held past =>
    cases c with
    | go =>
      exact Option.some.inj h ▸ waitLockUntil_effective (p := .lockUntil held past) rfl (Or.inl trivial)
    | _ => cases h
  | notify held =>
    cases c with
    | go => exact Option.some.inj h ▸ Effect.notify
    | _ => cases h

/-! ## Ownership -/

/-- The thread the lock names has locked it as often as the lock says, and no
other has. -/
structure Accounted (m : Lock ι) (points : ι → Point) : Prop where
  held : ∀ t, (points t).held = if m.id = some t then m.count else 0
  named : m.id ≠ none ↔ m.count ≠ 0
  bound : m.count ≤ limit
  active : ∀ t, (points t).Active → (points t).held = 0

variable {points : ι → Point}

theorem Accounted.held_eq_zero (h : Accounted m points) (hid : m.id ≠ some t) :
    (points t).held = 0 := by
  rw [h.held, if_neg hid]

theorem Accounted.id_eq (h : Accounted m points) (ht : (points t).held ≠ 0) : m.id = some t := by
  by_contra hid
  exact ht (h.held_eq_zero hid)

/-- A step of `t` after which the lock is that of `t`, or no one's, or as before. -/
theorem Accounted.update (h : Accounted m points)
    (hheld : p'.held = if m'.id = some t then m'.count else 0)
    (hothers : m' = m ∨ (m'.id = some t ∨ m'.id = none) ∧ (m.id = some t ∨ m.id = none))
    (hnamed : m'.id ≠ none ↔ m'.count ≠ 0) (hbound : m'.count ≤ limit)
    (hactive : p'.Active → p'.held = 0) :
    Accounted m' (Function.update points t p') := by
  refine ⟨fun u => ?_, hnamed, hbound, fun u hu => ?_⟩
  · by_cases hut : u = t
    · rw [hut, Function.update_self, hheld]
    · rw [Function.update_of_ne hut, h.held]
      rcases hothers with rfl | ⟨hnew, hold⟩
      · rfl
      · have hne {o : Option ι} (ho : o = some t ∨ o = none) : o ≠ some u := by
          rcases ho with rfl | rfl
          · exact fun heq => hut (Option.some.inj heq).symm
          · exact (Option.some_ne_none u).symm
        rw [if_neg (hne hnew), if_neg (hne hold)]
  · by_cases hut : u = t
    · rw [hut, Function.update_self] at hu ⊢
      exact hactive hu
    · rw [Function.update_of_ne hut] at hu ⊢
      exact h.active u hu

theorem Accounted.keep (h : Accounted m points) (hp : points t = p) (hheld : p'.held = p.held)
    (hactive : p'.Active → p'.held = 0) : Accounted m (Function.update points t p') := by
  refine h.update ?_ (Or.inl rfl) h.named h.bound hactive
  rw [hheld, ← hp, h.held]

/-- The count of a thread that unlocks is one less. -/
theorem Accounted.unlock_count (h : Accounted m points) (hp : points t = .idle (held + 1)) :
    m.id = some t ∧ (m.count + limit) % (limit + 1) = held := by
  have hheld := h.held t
  rw [hp] at hheld
  have hid : m.id = some t := h.id_eq (by rw [hp]; exact Nat.succ_ne_zero held)
  rw [if_pos hid] at hheld
  have hbound := h.bound
  refine ⟨hid, ?_⟩
  rw [← show held + 1 = m.count from hheld] at hbound ⊢
  rw [Nat.add_assoc, Nat.add_comm 1 limit, Nat.add_mod_right]
  exact Nat.mod_eq_of_lt (Nat.lt_of_lt_of_le (Nat.lt_succ_self held) (Nat.le_succ_of_le hbound))

theorem Accounted.effect (h : Accounted m points) (hp : points t = p)
    (heffect : Effect t m p m' next n) : Accounted m' (Function.update points t next.point) := by
  cases heffect with
  | refuse hheld _ => exact h.keep hp hheld.symm fun hidle => hidle.elim
  | @wait p p' hheld _ hid _ =>
    refine h.keep hp hheld fun _ => ?_
    rw [Next.point, hheld, ← hp]
    rcases hid with hactive | hid
    · exact h.active t (hp ▸ hactive)
    · exact h.held_eq_zero hid
  | first hcount =>
    have hnone : m.id = none := not_not.mp (mt h.named.mp (not_not.mpr hcount))
    have hzero : p.held = 0 := by
      rw [← hp, h.held, hcount, ite_self]
    refine h.update ?_ (Or.inr ⟨Or.inl rfl, Or.inr hnone⟩) ?_ (Nat.le_of_ble_eq_true rfl) fun hidle => hidle.elim
    · rw [if_pos rfl, Next.point, hzero]
      rfl
    · exact ⟨fun _ => Nat.one_ne_zero, fun _ => Option.some_ne_none t⟩
  | @again held hid hcount =>
    have hheld := h.held t
    rw [hp, if_pos hid] at hheld
    refine h.update ?_ (Or.inr ⟨Or.inl hid, Or.inl hid⟩) ?_ hcount fun hidle => hidle.elim
    · rw [if_pos hid]
      exact congrArg (· + 1) hheld
    · exact ⟨fun _ => Nat.succ_ne_zero _, fun _ => hid ▸ Option.some_ne_none t⟩
  | @last held hcount =>
    obtain ⟨hid, hheld⟩ := h.unlock_count hp
    obtain rfl : held = 0 := hheld.symm.trans hcount
    refine h.update ?_ (Or.inr ⟨Or.inr rfl, Or.inl hid⟩) ?_ (Nat.zero_le limit) fun _ => rfl
    · rw [ite_self]
      rfl
    · exact ⟨fun hne => absurd rfl hne, fun hne => absurd rfl hne⟩
  | @unlock held hcount =>
    obtain ⟨hid, hheld⟩ := h.unlock_count hp
    refine h.update ?_ (Or.inr ⟨Or.inl hid, Or.inl hid⟩) ?_ ?_ fun hidle => hidle.elim
    · rw [if_pos hid, hheld]
      rfl
    · exact ⟨fun _ => hcount, fun _ => hid ▸ Option.some_ne_none t⟩
    · exact Nat.le_of_lt_succ (Nat.mod_lt _ (Nat.succ_pos limit))
  | notify => exact h.keep hp rfl fun hidle => hidle.elim

/-! ## Runs -/

variable [Fintype ι] {s : Monitor.State ι (Lock ι) Unit Point}

abbrev Reachable (s : Monitor.State ι (Lock ι) Unit Point) : Prop :=
  ((program ι).system (start ι)).Reachable (fun _ _ => True) s

theorem timeout_held (h : timeout p = some p') : p'.held = p.held ∧ p'.Active ∧ p.Active := by
  cases p with
  | lockUntil held past =>
    obtain rfl := Option.some.inj h
    exact ⟨rfl, trivial, trivial⟩
  | _ => cases h

theorem reachable_accounted (h : Reachable s) : Accounted s.shared s.points := by
  refine Program.reachable_invariant (I := Accounted) ?_ ?_ ?_ h
  · refine ⟨fun t => (ite_self 0).symm, ?_, Nat.zero_le limit, fun _ hidle => hidle.elim⟩
    exact ⟨fun hne => absurd rfl hne, fun hne => absurd rfl hne⟩
  · intro s t c woken p σ' next n hI _ hplace hblock
    exact hI.effect (State.points_of_ready hplace) (block_effective hI.bound hblock)
  · intro s t p' hI htimeout
    obtain ⟨hheld, hactive, hbefore⟩ := timeout_held htimeout
    exact hI.keep rfl hheld fun _ => hheld.trans (hI.active t hbefore)

theorem active_of_asleep (h : Reachable s) (ht : s.place t = .asleep () p) : p.Active := by
  refine Program.reachable_sleepers (W := fun _ p _ => p.Active) (fun t q p => ?_) ?_ ?_ h ht
  · intro heq
    cases heq
  · intro s t c p σ' q p' n hreach hplace hblock
    have heffect : Effect t s.shared p σ' (.wait q p') n :=
      block_effective (reachable_accounted hreach).bound hblock
    cases heffect with
    | wait _ hactive => exact hactive
  · exact fun _ _ _ _ _ _ _ _ _ _ _ _ _ _ _ hactive => Or.inl hactive

/-- A thread that is asleep though the mutex is free has one that is awake, and
will look at the count or notify. -/
theorem relayed_of_asleep (h : Reachable s) (ht : s.place t = .asleep () p) :
    Program.Relayed (fun _ m => m.count ≠ 0) Point.Active s p := by
  refine Program.reachable_relayed (fun t p => ?_) ?_ ?_ ?_ h ht
  · intro heq
    cases heq
  · intro s t c p σ' p' n hreach hplace hblock
    have heffect : Effect t s.shared p σ' (.wait () p') n :=
      block_effective (reachable_accounted hreach).bound hblock
    cases heffect with
    | wait _ _ _ hcount => exact hcount
  · intro s t c p σ' next n hreach hplace hblock
    have heffect : Effect t s.shared p σ' next n :=
      block_effective (reachable_accounted hreach).bound hblock
    cases heffect with
    | refuse _ hpoint =>
      rcases hpoint with hidle | hcount
      · exact Or.inr (Or.inr (Or.inr (Or.inr ⟨hidle, fun _ _ _ _ hcount => hcount⟩)))
      · exact Or.inr (Or.inr (Or.inr (Or.inl fun _ _ _ _ => hcount)))
    | wait _ _ _ hcount => exact Or.inr (Or.inr (Or.inr (Or.inl fun _ _ _ _ => hcount)))
    | first _ => exact Or.inr (Or.inr (Or.inr (Or.inl fun _ _ _ _ => Nat.one_ne_zero)))
    | again _ _ => exact Or.inr (Or.inr (Or.inr (Or.inl fun _ _ _ _ => Nat.succ_ne_zero _)))
    | last _ => exact Or.inl ⟨_, rfl, trivial⟩
    | unlock hcount => exact Or.inr (Or.inr (Or.inr (Or.inl fun _ _ _ _ => hcount)))
    | notify => exact Or.inr (Or.inr (Or.inl ⟨rfl, fun _ _ hasleep => active_of_asleep hreach hasleep⟩))
  · exact fun p p' htimeout _ => (timeout_held htimeout).2.1

/-- The lock names the one thread that holds the mutex and counts how often it
has locked it, up to the limit; a thread that is asleep does not hold the mutex,
and another one does, or is awake and about to look at the count or to notify. -/
theorem recursive_mutex (h : Reachable s) :
    (∀ t, (s.points t).held = if s.shared.id = some t then s.shared.count else 0) ∧
      (s.shared.id ≠ none ↔ s.shared.count ≠ 0) ∧ s.shared.count ≤ limit ∧
      (∀ t u, (s.points t).held ≠ 0 → (s.points u).held ≠ 0 → t = u) ∧
      ∀ t p, s.place t = .asleep () p → (s.points t).held = 0 ∧
        ((∃ u, (s.points u).held ≠ 0) ∨ ∃ u p', s.place u = .ready p' ∧ p'.Active) := by
  have haccounted := reachable_accounted h
  refine ⟨haccounted.held, haccounted.named, haccounted.bound, fun t u ht hu => ?_,
    fun t p ht => ⟨?_, ?_⟩⟩
  · have heq := (haccounted.id_eq ht).symm.trans (haccounted.id_eq hu)
    exact Option.some.inj heq
  · refine haccounted.active t ?_
    rw [State.points_of_asleep ht]
    exact active_of_asleep h ht
  · refine (relayed_of_asleep h ht).imp (fun hcount => ?_) id
    obtain ⟨u, hu⟩ := Option.ne_none_iff_exists'.mp (haccounted.named.mpr hcount)
    refine ⟨u, ?_⟩
    rw [haccounted.held, if_pos hu]
    exact hcount

/-- The last unlock has released the mutex and not yet notified. -/
theorem recursive_mutex_two :
    ∃ s : Monitor.State (Fin 2) (Lock (Fin 2)) Unit Point,
      s.place 0 = .ready (.notify 0) ∧ s.place 1 = .asleep () (.lock 0) ∧
        (∀ t, (s.points t).held = if s.shared.id = some t then s.shared.count else 0) ∧
        ((∃ u, (s.points u).held ≠ 0) ∨ ∃ u p, s.place u = .ready p ∧ p.Active) := by
  have hexec : ∃ s, ((program (Fin 2)).system (start (Fin 2))).exec (fun _ _ => True)
      (start (Fin 2)) [.run 0 .lock 0, .run 0 .lock 0, .run 1 .lock 0, .run 0 .unlock 0,
        .run 0 .unlock 0] = some s ∧
      s.place 0 = .ready (.notify 0) ∧ s.place 1 = .asleep () (.lock 0) :=
    ⟨_, rfl, by decide, by decide⟩
  obtain ⟨s, hs, hnotify, hasleep⟩ := hexec
  have hall := recursive_mutex (System.reachable_of_exec rfl hs)
  exact ⟨s, hnotify, hasleep, hall.1, (hall.2.2.2.2 1 (.lock 0) hasleep).2⟩

end Libhipcxx.Mutex.Recursive
