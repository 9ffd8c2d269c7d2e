import Libhipcxx.Semaphore.Base
import Libhipcxx.Support.Threads

/-!
# The semaphore over a native semaphore

`__sem_semaphore_base` with its two buffers.  The front buffer packs the free
tokens, in the upper half, with the number of acquirers that have recorded
themselves; the back buffer keeps the tokens of a large release until an
acquirer that has been let through posts them.  The native semaphore counts.

The words are integers: below `max()` nothing overflows a `ptrdiff_t`.  Two
records, which the code never reads, count the tokens released and acquired.
-/

namespace Libhipcxx.Semaphore.Native

open Transition Threads

/-- One token in the front buffer, `1ll << 32`. -/
def token : ℤ := 4294967296

/-- The next atomic operation of a thread. -/
inductive Point where
  | idle
  | poll
  | steal (old : ℤ)
  | record
  | stealRecorded (old : ℤ)
  | wait
  | tryDone
  | backfill
  | refill (posts restore : ℕ)
  | release (update : ℕ)
  | addBack (update : ℕ)
  | post (n : ℕ)
  deriving DecidableEq

/-- The front buffer, the back buffer, and the count of the native semaphore. -/
structure Buffers where
  front : ℤ
  back : ℤ
  native : ℕ

/-- The first loop of `__try_acquire_fast`. -/
def stealing (old : ℤ) : Point :=
  if old >>> (32 : ℕ) ≠ 0 then .steal old else .record

/-- The second loop, after the acquirer has been recorded. -/
def recorded (old : ℤ) : Point :=
  if old >>> (32 : ℕ) ≠ 0 then .stealRecorded old else .wait

/-- The rest of `__backfill`, with so many posts to make and so much to add to
the back buffer again. -/
def refilling (posts restore : ℕ) : Point :=
  if posts = 0 ∧ restore = 0 then .idle else .refill posts restore

/-- `__backfill` after its subtraction. -/
def backfilled (backAmount : ℤ) : Point :=
  if 1 < backAmount then refilling 2 0
  else if 0 < backAmount then refilling 1 1
  else refilling 0 2

/-- The posts that are left to `__release_slow`. -/
def posting (n : ℕ) : Point :=
  if n = 0 then .idle else .post n

/-- `__release_slow`. -/
def releaseSlow (postAmount : ℕ) : Point :=
  if 2 < postAmount then .addBack postAmount else posting postAmount

/-- The atomic operation at a point: the buffers, the tokens that the thread
takes, and the next point.  The fast path of `release` compares the whole word
with zero. -/
def next (b : Buffers) (choice : Choice) : Point → Option (Buffers × ℕ × Point)
  | .poll =>
      some (b, 0,
        if b.front >>> (32 : ℕ) ≠ 0 ∨ choice = .timeExpired then stealing b.front
        else .poll)
  | .steal old =>
      if b.front = old ∧ choice ≠ .spuriousFailure then
        some ({ b with front := old - token }, 1, .idle)
      else some (b, 0, stealing b.front)
  | .record => some ({ b with front := b.front + 1 }, 0, recorded b.front)
  | .stealRecorded old =>
      if b.front = old ∧ choice ≠ .spuriousFailure then
        some ({ b with front := old - token }, 1, .tryDone)
      else some (b, 0, recorded b.front)
  | .wait =>
      if 0 < b.native then some ({ b with native := b.native - 1 }, 1, .tryDone)
      else none
  | .tryDone => some ({ b with front := b.front - 1 }, 0, .backfill)
  | .backfill => some ({ b with back := b.back - 2 }, 0, backfilled b.back)
  | .refill 0 restore => some ({ b with back := b.back + restore }, 0, .idle)
  | .refill (posts + 1) restore =>
      some ({ b with native := b.native + 1 }, 0, refilling posts restore)
  | .release update =>
      if b.front = 0 then
        if choice ≠ .spuriousFailure then
          some ({ b with front := 0 + update * token }, 0, .idle)
        else some (b, 0, .release update)
      else some (b, 0, releaseSlow update)
  | .addBack update =>
      some ({ b with back := b.back + (update - 2) }, 0, posting 2)
  | .post n => some ({ b with native := b.native + 1 }, 0, posting (n - 1))
  | .idle => none

structure State (ι : Type) where
  buffers : Buffers
  pc : ι → Point
  released : ℕ
  acquired : ℕ

inductive Label (ι : Type) where
  | acquire (t : ι)
  | release (t : ι) (update : ℕ)
  | step (t : ι) (choice : Choice)

variable {ι : Type} [DecidableEq ι]

def step (s : State ι) : Label ι → Option (State ι)
  | .acquire t =>
      if s.pc t = .idle then
        some { s with pc := Function.update s.pc t .poll }
      else none
  | .release t update =>
      if s.pc t = .idle then
        some { s with
          pc := Function.update s.pc t (.release update)
          released := s.released + update }
      else none
  | .step t choice =>
      (next s.buffers choice (s.pc t)).map fun (buffers, taken, pc) =>
        { s with
          buffers := buffers
          pc := Function.update s.pc t pc
          acquired := s.acquired + taken }

def start (ι : Type) (count : ℕ) : State ι where
  buffers := ⟨count * token, 0, 0⟩
  pc _ := .idle
  released := 0
  acquired := 0

def system (ι : Type) [DecidableEq ι] (count : ℕ) :
    System (State ι) (Label ι) where
  start s := s = start ι count
  step := step

/-! ## What a thread contributes -/

namespace Point

/-- Tokens that a thread has taken out of the buffers, or has been given to
release, and not yet put back. -/
def inFlight : Point → ℕ
  | refill posts restore => posts + restore
  | release update => update
  | addBack update => update
  | post n => n
  | _ => 0

/-- One for an acquirer that is recorded in the front buffer. -/
def waiters : Point → ℕ
  | stealRecorded _ => 1
  | wait => 1
  | tryDone => 1
  | _ => 0

/-- What a backfill still has to add to the back buffer. -/
def restores : Point → ℕ
  | refill _ restore => restore
  | _ => 0

/-- The posts that a thread is going to make. -/
def posts : Point → ℕ
  | refill posts _ => posts
  | post n => n
  | _ => 0

/-- One for a thread that is going to backfill. -/
def backfills : Point → ℕ
  | tryDone => 1
  | backfill => 1
  | _ => 0

/-- What the code has checked on the way to a point. -/
def Sound : Point → Prop
  | steal old => old >>> (32 : ℕ) ≠ 0
  | stealRecorded old => old >>> (32 : ℕ) ≠ 0
  | addBack update => 2 < update
  | post n => 0 < n
  | _ => True

end Point

/-- A step that leaves the buffers. -/
structure Looks (front : ℤ) (pc pc' : Point) : Prop where
  inFlight : pc'.inFlight = pc.inFlight
  waiters : pc'.waiters = pc.waiters
  restores : pc'.restores = pc.restores
  backfills : pc'.backfills = pc.backfills
  posts : pc.posts ≤ pc'.posts
  sound : pc'.Sound
  wait : pc' = .wait → front >>> (32 : ℕ) = 0

/-- What the atomic operation at a point does. -/
inductive Effect (b : Buffers) : Point → Buffers → ℕ → Point → Prop
  | look {pc pc' : Point} (hlook : Looks b.front pc pc') : Effect b pc b 0 pc'
  | steal {old : ℤ} (hold : b.front = old) :
      Effect b (.steal old) { b with front := old - token } 1 .idle
  | record : Effect b .record { b with front := b.front + 1 } 0 (recorded b.front)
  | stealRecorded {old : ℤ} (hold : b.front = old) :
      Effect b (.stealRecorded old) { b with front := old - token } 1 .tryDone
  | wait (hpos : 0 < b.native) :
      Effect b .wait { b with native := b.native - 1 } 1 .tryDone
  | tryDone : Effect b .tryDone { b with front := b.front - 1 } 0 .backfill
  | backfill : Effect b .backfill { b with back := b.back - 2 } 0 (backfilled b.back)
  | restore {restore : ℕ} :
      Effect b (.refill 0 restore) { b with back := b.back + restore } 0 .idle
  | refill {posts restore : ℕ} :
      Effect b (.refill (posts + 1) restore) { b with native := b.native + 1 } 0
        (refilling posts restore)
  | release {update : ℕ} (hzero : b.front = 0) :
      Effect b (.release update) { b with front := 0 + update * token } 0 .idle
  | addBack {update : ℕ} :
      Effect b (.addBack update) { b with back := b.back + (update - 2) } 0 (.post 2)
  | post {n : ℕ} : Effect b (.post n) { b with native := b.native + 1 } 0 (posting (n - 1))

theorem looks_stealing {b : Buffers} {pc : Point} (hpc : pc = .poll ∨ ∃ old, pc = .steal old) :
    Looks b.front pc (stealing b.front) := by
  have hzero : pc.inFlight = 0 ∧ pc.waiters = 0 ∧ pc.restores = 0 ∧ pc.backfills = 0 ∧
      pc.posts = 0 := by
    rcases hpc with rfl | ⟨old, rfl⟩ <;> exact ⟨rfl, rfl, rfl, rfl, rfl⟩
  obtain ⟨h₁, h₂, h₃, h₄, h₅⟩ := hzero
  rw [stealing]
  split
  · rename_i htoken
    exact ⟨h₁.symm, h₂.symm, h₃.symm, h₄.symm, h₅.le, htoken, nofun⟩
  · exact ⟨h₁.symm, h₂.symm, h₃.symm, h₄.symm, h₅.le, trivial, nofun⟩

theorem looks_recorded {b : Buffers} {old : ℤ} :
    Looks b.front (.stealRecorded old) (recorded b.front) := by
  rw [recorded]
  split
  · rename_i htoken
    exact ⟨rfl, rfl, rfl, rfl, le_rfl, htoken, nofun⟩
  · rename_i hnone
    exact ⟨rfl, rfl, rfl, rfl, le_rfl, trivial, fun _ => not_not.mp hnone⟩

theorem looks_releaseSlow {b : Buffers} {update : ℕ} :
    Looks b.front (.release update) (releaseSlow update) := by
  rw [releaseSlow]
  split
  · rename_i hlarge
    exact ⟨rfl, rfl, rfl, rfl, le_rfl, hlarge, nofun⟩
  · rw [posting]
    split
    · rename_i hzero
      exact ⟨hzero.symm, rfl, rfl, rfl, le_rfl, trivial, nofun⟩
    · rename_i hpos
      exact ⟨rfl, rfl, rfl, rfl, Nat.zero_le _, Nat.pos_of_ne_zero hpos, nofun⟩

theorem effect_of_next {b b' : Buffers} {choice : Choice} {pc pc' : Point} {taken : ℕ}
    (h : next b choice pc = some (b', taken, pc')) : Effect b pc b' taken pc' := by
  cases pc with
  | idle => cases h
  | poll =>
      cases h
      split
      · exact Effect.look (looks_stealing (Or.inl rfl))
      · exact Effect.look ⟨rfl, rfl, rfl, rfl, le_rfl, trivial, nofun⟩
  | steal old =>
      rw [next] at h
      split at h
      · rename_i hswap
        cases h
        exact Effect.steal hswap.1
      · cases h
        exact Effect.look (looks_stealing (Or.inr ⟨old, rfl⟩))
  | record =>
      cases h
      exact Effect.record
  | stealRecorded old =>
      rw [next] at h
      split at h
      · rename_i hswap
        cases h
        exact Effect.stealRecorded hswap.1
      · cases h
        exact Effect.look looks_recorded
  | wait =>
      rw [next] at h
      split at h
      · rename_i hpos
        cases h
        exact Effect.wait hpos
      · cases h
  | tryDone =>
      cases h
      exact Effect.tryDone
  | backfill =>
      cases h
      exact Effect.backfill
  | refill posts restore =>
      cases posts with
      | zero =>
          cases h
          exact Effect.restore
      | succ posts =>
          cases h
          exact Effect.refill
  | release update =>
      rw [next] at h
      split at h
      · rename_i hzero
        split at h
        · cases h
          exact Effect.release hzero
        · cases h
          exact Effect.look ⟨rfl, rfl, rfl, rfl, le_rfl, trivial, nofun⟩
      · cases h
        exact Effect.look looks_releaseSlow
  | addBack update =>
      cases h
      exact Effect.addBack
  | post n =>
      cases h
      exact Effect.post

/-! ## Conservation -/

theorem shift_eq (n : ℤ) : n >>> (32 : ℕ) = n / token :=
  Int.shiftRight_eq_div_pow n 32

/-- A thread with so many posts to make and so much to add to the back buffer,
and nothing else to do. -/
structure Pending (posts restore : ℕ) (pc : Point) : Prop where
  inFlight : pc.inFlight = posts + restore
  waiters : pc.waiters = 0
  restores : pc.restores = restore
  posts : pc.posts = posts
  backfills : pc.backfills = 0
  sound : pc.Sound
  ne_wait : pc ≠ .wait

theorem pending_refilling (posts restore : ℕ) :
    Pending posts restore (refilling posts restore) := by
  rw [refilling]
  split
  · rename_i hzero
    obtain ⟨rfl, rfl⟩ := hzero
    exact ⟨rfl, rfl, rfl, rfl, rfl, trivial, nofun⟩
  · exact ⟨rfl, rfl, rfl, rfl, rfl, trivial, nofun⟩

theorem pending_posting (n : ℕ) : Pending n 0 (posting n) := by
  rw [posting]
  split
  · rename_i hzero
    rw [hzero]
    exact ⟨rfl, rfl, rfl, rfl, rfl, trivial, nofun⟩
  · rename_i hpos
    exact ⟨rfl, rfl, rfl, rfl, rfl, Nat.pos_of_ne_zero hpos, nofun⟩

/-- A backfill that finds tokens takes one or two of them to post. -/
theorem pending_backfilled (back : ℤ) :
    ∃ posts restore, Pending posts restore (backfilled back) ∧
      posts + restore = 2 ∧ (posts = 0 ↔ back ≤ 0) ∧ (posts : ℤ) ≤ max back 0 ∧
      (1 < back → restore = 0) ∧ (back = 1 → restore = 1) := by
  rw [backfilled]
  split
  · exact ⟨2, 0, pending_refilling 2 0, by omega, by omega, by omega, by omega,
      by omega⟩
  · split
    · exact ⟨1, 1, pending_refilling 1 1, by omega, by omega, by omega, by omega,
        by omega⟩
    · exact ⟨0, 2, pending_refilling 0 2, by omega, by omega, by omega, by omega,
        by omega⟩

variable [Fintype ι] {count : ℕ} {b b' : Buffers} {pc : ι → Point} {t : ι}
  {p : Point} {released acquired taken : ℕ} {s s' : State ι}

/-- The lower half of the front buffer counts the recorded acquirers, the upper
half is free of tokens while one of them waits, and no token is lost. -/
structure Balanced (count : ℕ) (b : Buffers) (pc : ι → Point)
    (released acquired : ℕ) : Prop where
  nonneg : 0 ≤ b.front
  low : b.front % token = total Point.waiters pc
  conserved : (count : ℤ) + released =
    acquired + b.front / token + b.back + b.native + total Point.inFlight pc
  sound : ∀ t, (pc t).Sound
  wait : ∀ t, pc t = .wait → b.front / token = 0

theorem balanced_move (h : Balanced count b pc released acquired)
    (hnonneg : 0 ≤ b'.front)
    (hlow : b'.front % token + (pc t).waiters = b.front % token + p.waiters)
    (hconserved : taken + b'.front / token + b'.back + b'.native + p.inFlight =
      b.front / token + b.back + b.native + (pc t).inFlight)
    (hsound : p.Sound) (hself : p = .wait → b'.front / token = 0)
    (hothers : ∀ w, w ≠ t → pc w = .wait → b'.front / token = 0) :
    Balanced count b' (Function.update pc t p) released (acquired + taken) := by
  have hwaiters := total_update Point.waiters pc t p
  have hinFlight := total_update Point.inFlight pc t p
  constructor
  · exact hnonneg
  · have hold := h.low
    omega
  · have hold := h.conserved
    omega
  · intro w
    exact prop_update hsound (h.sound w)
  · intro w hw
    by_cases hwt : w = t
    · rw [hwt, Function.update_self] at hw
      exact hself hw
    · rw [Function.update_of_ne hwt] at hw
      exact hothers w hwt hw

/-- A step that leaves the front buffer. -/
theorem balanced_same (h : Balanced count b pc released acquired)
    (hfront : b'.front = b.front) (hwaiters : p.waiters = (pc t).waiters)
    (hconserved : taken + b'.back + b'.native + p.inFlight =
      b.back + b.native + (pc t).inFlight)
    (hsound : p.Sound) (hself : p = .wait → b.front / token = 0) :
    Balanced count b' (Function.update pc t p) released (acquired + taken) := by
  refine balanced_move h ?_ ?_ ?_ hsound ?_ ?_
  · rw [hfront]
    exact h.nonneg
  · rw [hfront, hwaiters]
  · rw [hfront]
    omega
  · rwa [hfront]
  · intro w _ hw
    rw [hfront]
    exact h.wait w hw

/-- A thread goes on to its posts. -/
theorem balanced_pending {posts restore : ℕ}
    (h : Balanced count b pc released acquired) (hpending : Pending posts restore p)
    (hfront : b'.front = b.front) (hwaiters : (pc t).waiters = 0)
    (hconserved : taken + b'.back + b'.native + (posts + restore) =
      b.back + b.native + (pc t).inFlight) :
    Balanced count b' (Function.update pc t p) released (acquired + taken) := by
  refine balanced_same h hfront (hpending.waiters.trans hwaiters.symm) ?_
    hpending.sound fun hwait => absurd hwait hpending.ne_wait
  rw [hpending.inFlight]
  exact_mod_cast hconserved

omit [DecidableEq ι] in
/-- A token is taken out of the front buffer; nobody waits. -/
theorem front_sub_token {old : ℤ} (h : Balanced count b pc released acquired)
    (hold : b.front = old) (htoken : old >>> (32 : ℕ) ≠ 0) :
    0 ≤ old - token ∧ (old - token) % token = b.front % token ∧
      1 + (old - token) / token = b.front / token ∧ ∀ w, pc w ≠ .wait := by
  rw [shift_eq] at htoken
  have hnonneg := h.nonneg
  refine ⟨?_, ?_, ?_, ?_⟩
  · simp only [token] at htoken ⊢
    omega
  · simp only [token]
    omega
  · simp only [token]
    omega
  · intro w hw
    have hempty := h.wait w hw
    rw [hold] at hempty
    exact htoken hempty

/-- A thread takes a token out of the front buffer. -/
theorem balanced_steal {old : ℤ} (h : Balanced count b pc released acquired)
    (hold : b.front = old) (htoken : old >>> (32 : ℕ) ≠ 0)
    (hwaiters : p.waiters = (pc t).waiters) (hinFlight : p.inFlight = (pc t).inFlight)
    (hsound : p.Sound) (hwait : p ≠ .wait) :
    Balanced count { b with front := old - token } (Function.update pc t p)
      released (acquired + 1) := by
  obtain ⟨hnonneg, hlow, hdiv, hnone⟩ := front_sub_token h hold htoken
  refine balanced_move h hnonneg ?_ ?_ hsound (absurd · hwait) ?_
  · rw [hlow, hwaiters]
  · rw [hinFlight, ← hdiv]
    rfl
  · intro w _ hw
    exact absurd hw (hnone w)

omit [DecidableEq ι] in
/-- Nobody waits, or is recorded, where the front buffer is empty. -/
theorem not_wait_of_front (h : Balanced count b pc released acquired)
    (hzero : b.front = 0) (w : ι) : pc w ≠ .wait := by
  intro hw
  have hlow := h.low
  have hone := le_total Point.waiters pc w
  rw [hw, Point.waiters] at hone
  rw [hzero, Int.zero_emod] at hlow
  omega

/-- A release puts its tokens in the empty front buffer. -/
theorem balanced_release {update : ℕ} (h : Balanced count b pc released acquired)
    (hpc : pc t = .release update) (hzero : b.front = 0) :
    Balanced count { b with front := 0 + update * token }
      (Function.update pc t .idle) released acquired := by
  have hmod : (0 + update * token) % token = 0 := by
    simp only [token]
    omega
  have hdiv : (0 + update * token) / token = update := by
    simp only [token]
    omega
  change Balanced count _ _ released (acquired + 0)
  refine balanced_move h ?_ ?_ ?_ trivial nofun ?_
  · simp only [token]
    omega
  · rw [hpc, hmod, hzero, Int.zero_emod]
    rfl
  · rw [hpc, hzero, Int.zero_ediv]
    simp only [hdiv, Point.inFlight]
    omega
  · intro w _ hw
    exact absurd hw (not_wait_of_front h hzero w)

theorem sound_recorded (old : ℤ) : (recorded old).Sound := by
  rw [recorded]
  split
  · rename_i htoken
    exact htoken
  · trivial

theorem recorded_wait {old : ℤ} (h : recorded old = .wait) : old / token = 0 := by
  rw [recorded] at h
  split at h
  · cases h
  · rename_i hnone
    rw [← shift_eq]
    exact not_not.mp hnone

/-- A recorded acquirer, whether it steals or waits. -/
theorem recorded_spec (old : ℤ) :
    (recorded old).waiters = 1 ∧ (recorded old).inFlight = 0 ∧
      (recorded old).restores = 0 ∧ (recorded old).posts = 0 ∧
      (recorded old).backfills = 0 := by
  rw [recorded]
  split <;> exact ⟨rfl, rfl, rfl, rfl, rfl⟩

theorem balanced_effect (h : Balanced count b pc released acquired)
    (hroom : pc t = .record → b.front % token + 1 < token)
    (heffect : Effect b (pc t) b' taken p) :
    Balanced count b' (Function.update pc t p) released (acquired + taken) := by
  have hnonneg := h.nonneg
  have hle := le_total Point.waiters pc t
  have hlow := h.low
  have hsound := h.sound t
  generalize hpc : pc t = q at heffect hsound hle
  cases heffect with
  | look hlook =>
      refine balanced_same h rfl (by rw [hpc, hlook.waiters]) ?_ hlook.sound ?_
      · rw [hpc, hlook.inFlight]
        omega
      · intro hwait
        rw [← shift_eq]
        exact hlook.wait hwait
  | steal hold =>
      exact balanced_steal h hold hsound (by rw [hpc]; rfl) (by rw [hpc]; rfl)
        trivial nofun
  | stealRecorded hold =>
      exact balanced_steal h hold hsound (by rw [hpc]; rfl) (by rw [hpc]; rfl)
        trivial nofun
  | record =>
      have hfits := hroom hpc
      have hdiv : (b.front + 1) / token = b.front / token := by
        simp only [token] at hfits ⊢
        omega
      refine balanced_move h (show 0 ≤ b.front + 1 by omega) ?_ ?_
        (sound_recorded b.front) ?_ ?_
      · rw [hpc, (recorded_spec b.front).1]
        simp only [token, Point.waiters] at hfits ⊢
        omega
      · rw [hpc, (recorded_spec b.front).2.1]
        simp only [hdiv, Point.inFlight]
        omega
      · intro hwait
        exact hdiv.trans (recorded_wait hwait)
      · intro w _ hw
        exact hdiv.trans (h.wait w hw)
  | wait hpos =>
      refine balanced_same h rfl (by rw [hpc]; rfl) ?_ trivial nofun
      rw [hpc]
      simp only [Point.inFlight]
      omega
  | tryDone =>
      have hone : 1 ≤ b.front % token := by
        simp only [Point.waiters] at hle
        omega
      have hdiv : (b.front - 1) / token = b.front / token := by
        simp only [token] at hone ⊢
        omega
      refine balanced_move h ?_ ?_ ?_ trivial nofun ?_
      · simp only [token] at hone ⊢
        omega
      · rw [hpc]
        simp only [token, Point.waiters] at hone ⊢
        omega
      · rw [hpc]
        simp only [hdiv, Point.inFlight]
        omega
      · intro w _ hw
        exact hdiv.trans (h.wait w hw)
  | backfill =>
      obtain ⟨posts, restore, hpending, htwo, -⟩ := pending_backfilled b.back
      refine balanced_pending h hpending rfl (by rw [hpc]; rfl) ?_
      rw [hpc]
      simp only [Point.inFlight]
      omega
  | restore =>
      refine balanced_same h rfl (by rw [hpc]; rfl) ?_ trivial nofun
      rw [hpc]
      simp only [Point.inFlight]
      omega
  | refill =>
      refine balanced_pending h (pending_refilling _ _) rfl (by rw [hpc]; rfl) ?_
      rw [hpc]
      simp only [Point.inFlight]
      omega
  | release hzero => exact balanced_release h hpc hzero
  | addBack =>
      refine balanced_same h rfl (by rw [hpc]; rfl) ?_ (show 0 < 2 by omega) nofun
      rw [hpc]
      simp only [Point.inFlight]
      omega
  | post =>
      refine balanced_pending h (pending_posting _) rfl (by rw [hpc]; rfl) ?_
      rw [hpc]
      simp only [Point.inFlight, Point.Sound] at hsound ⊢
      omega

/-! ## The back buffer -/

/-- Without the amounts that backfills are about to add again, the back buffer
holds tokens.  Such amounts are only outstanding while it holds none, and while
it holds some, somebody is going to look at it. -/
structure Served (b : Buffers) (pc : ι → Point) : Prop where
  nonneg : 0 ≤ b.back + total Point.restores pc
  settled : total Point.restores pc = 0 ∨ b.back + total Point.restores pc = 0
  served : 0 < b.back + total Point.restores pc →
    0 < b.native + total Point.posts pc + total Point.backfills pc

/-- Backfills take no more out of the back buffer than it holds and they add
again. -/
theorem covered_effect (h : 0 ≤ b.back + total Point.restores pc) (hsound : ∀ t, (pc t).Sound)
    (heffect : Effect b (pc t) b' taken p) :
    0 ≤ b'.back + total Point.restores (Function.update pc t p) := by
  have hrestores := total_update Point.restores pc t p
  have hpoint := hsound t
  generalize pc t = q at heffect hpoint hrestores
  cases heffect with
  | look hlook =>
      rw [hlook.restores] at hrestores
      omega
  | record =>
      rw [(recorded_spec b.front).2.2.1] at hrestores
      simp only [Point.restores] at hrestores ⊢
      omega
  | backfill =>
      obtain ⟨posts, restore, hpending, htwo, -, hmax, -⟩ := pending_backfilled b.back
      rw [hpending.restores] at hrestores
      simp only [Point.restores] at hrestores ⊢
      omega
  | @refill posts restore =>
      rw [(pending_refilling posts restore).restores] at hrestores
      simp only [Point.restores] at hrestores ⊢
      omega
  | addBack =>
      simp only [Point.restores, Point.Sound] at hrestores hpoint ⊢
      omega
  | @post n =>
      rw [(pending_posting (n - 1)).restores] at hrestores
      simp only [Point.restores] at hrestores ⊢
      omega
  | _ =>
      simp only [Point.restores] at hrestores ⊢
      omega

theorem served_effect (h : Served b pc) (hsound : ∀ t, (pc t).Sound)
    (hcalm : ∀ update, pc t = .addBack update → total Point.restores pc = 0)
    (heffect : Effect b (pc t) b' taken p) :
    Served b' (Function.update pc t p) := by
  have hcovered := covered_effect h.nonneg hsound heffect
  have hrestores := total_update Point.restores pc t p
  have hposts := total_update Point.posts pc t p
  have hbackfills := total_update Point.backfills pc t p
  obtain ⟨hnonneg, hsettled, hserved⟩ := h
  have hpoint := hsound t
  generalize hpc : pc t = q at heffect hpoint hrestores hposts hbackfills
  cases heffect with
  | look hlook =>
      obtain ⟨-, -, hr, hb, hp, -, -⟩ := hlook
      refine ⟨hcovered, ?_, ?_⟩ <;> omega
  | record =>
      obtain ⟨-, -, hr, hp, hb⟩ := recorded_spec b.front
      rw [hr] at hrestores
      rw [hp] at hposts
      rw [hb] at hbackfills
      simp only [Point.restores, Point.posts, Point.backfills]
        at hrestores hposts hbackfills
      refine ⟨hcovered, ?_, ?_⟩ <;> dsimp only <;> omega
  | backfill =>
      obtain ⟨posts, restore, hpending, htwo, hnone, hmax, hmany, hone⟩ :=
        pending_backfilled b.back
      rw [hpending.restores] at hrestores
      rw [hpending.posts] at hposts
      rw [hpending.backfills] at hbackfills
      simp only [Point.restores, Point.posts, Point.backfills]
        at hrestores hposts hbackfills
      refine ⟨hcovered, ?_, ?_⟩ <;> dsimp only <;> omega
  | @refill posts restore =>
      have hpending := pending_refilling posts restore
      rw [hpending.restores] at hrestores
      rw [hpending.posts] at hposts
      rw [hpending.backfills] at hbackfills
      simp only [Point.restores, Point.posts, Point.backfills]
        at hrestores hposts hbackfills
      refine ⟨hcovered, ?_, ?_⟩ <;> dsimp only <;> omega
  | addBack =>
      have hquiet := hcalm _ hpc
      simp only [Point.restores, Point.posts, Point.backfills, Point.Sound]
        at hrestores hposts hbackfills hpoint
      refine ⟨hcovered, ?_, ?_⟩ <;> dsimp only <;> omega
  | @post n =>
      have hpending := pending_posting (n - 1)
      rw [hpending.restores] at hrestores
      rw [hpending.posts] at hposts
      rw [hpending.backfills] at hbackfills
      simp only [Point.restores, Point.posts, Point.backfills, Point.Sound]
        at hrestores hposts hbackfills hpoint
      refine ⟨hcovered, ?_, ?_⟩ <;> dsimp only <;> omega
  | _ =>
      simp only [Point.restores, Point.posts, Point.backfills]
        at hrestores hposts hbackfills
      refine ⟨hcovered, ?_, ?_⟩ <;> dsimp only <;> omega

/-! ## Runs -/

/-- The recorded acquirers fit in the lower half of the front buffer. -/
def Room (s : State ι) : Label ι → Prop
  | .step t _ => s.pc t = .record → s.buffers.front % token + 1 < token
  | _ => True

/-- No tokens go to the back buffer while a backfill has yet to add again what
it has subtracted. -/
def State.Calm (s : State ι) : Point → Prop
  | .addBack _ => ∀ w, (s.pc w).restores = 0
  | _ => True

def Calm (s : State ι) : Label ι → Prop
  | .step t _ => s.Calm (s.pc t)
  | _ => True

/-- Each thread is outside the functions or blocked in the native wait. -/
def Quiescent (s : State ι) : Prop :=
  (∀ t, s.pc t = .idle ∨ s.pc t = .wait) ∧ s.buffers.native = 0

omit [DecidableEq ι] [Fintype ι] in
instance (s : State ι) (l : Label ι) : Decidable (Room s l) := by
  cases l <;> unfold Room <;> infer_instance

omit [DecidableEq ι] in
instance (s : State ι) (p : Point) : Decidable (s.Calm p) := by
  cases p <;> unfold State.Calm <;> infer_instance

omit [DecidableEq ι] in
instance (s : State ι) (l : Label ι) : Decidable (Calm s l) := by
  cases l <;> unfold Calm <;> infer_instance

omit [Fintype ι] in
/-- What a step of each kind does. -/
theorem step_cases {l : Label ι} (h : step s l = some s') :
    (∃ t p update, s.pc t = .idle ∧
      (p = .poll ∧ update = 0 ∨ p = .release update) ∧
      s' = { s with
        pc := Function.update s.pc t p
        released := s.released + update }) ∨
    (∃ t choice b' taken p, l = .step t choice ∧
      Effect s.buffers (s.pc t) b' taken p ∧
      s' = { s with
        buffers := b'
        pc := Function.update s.pc t p
        acquired := s.acquired + taken }) := by
  cases l with
  | acquire t =>
      rw [step] at h
      split at h
      · rename_i hidle
        exact Or.inl ⟨t, .poll, 0, hidle, Or.inl ⟨rfl, rfl⟩, (Option.some.inj h).symm⟩
      · cases h
  | release t update =>
      rw [step] at h
      split at h
      · rename_i hidle
        exact Or.inl ⟨t, .release update, update, hidle, Or.inr rfl,
          (Option.some.inj h).symm⟩
      · cases h
  | step t choice =>
      obtain ⟨⟨b', taken, p⟩, hnext, hs'⟩ := Option.map_eq_some_iff.mp h
      exact Or.inr ⟨t, choice, b', taken, p, rfl, effect_of_next hnext, hs'.symm⟩

/-- A call begins, with tokens to release or with none. -/
theorem balanced_call {update : ℕ} (h : Balanced count b pc released acquired)
    (hidle : pc t = .idle) (hp : p = .poll ∧ update = 0 ∨ p = .release update) :
    Balanced count b (Function.update pc t p) (released + update) acquired := by
  have hpoint : p.inFlight = update ∧ p.waiters = 0 ∧ p.Sound ∧ p ≠ .wait := by
    rcases hp with ⟨rfl, rfl⟩ | rfl <;> exact ⟨rfl, rfl, trivial, nofun⟩
  obtain ⟨hinFlight, hwaiters, hsound, hwait⟩ := hpoint
  have htotal := total_update Point.inFlight pc t p
  have htotal' := total_update Point.waiters pc t p
  rw [hidle, hinFlight] at htotal
  rw [hidle, hwaiters] at htotal'
  simp only [Point.inFlight, Point.waiters] at htotal htotal'
  constructor
  · exact h.nonneg
  · have hlow := h.low
    omega
  · have hconserved := h.conserved
    push_cast
    omega
  · intro w
    exact prop_update hsound (h.sound w)
  · intro w hw
    obtain ⟨hwt, hw⟩ := of_update hw hwait
    exact h.wait w hw

theorem served_call {update : ℕ} (h : Served b pc) (hidle : pc t = .idle)
    (hp : p = .poll ∧ update = 0 ∨ p = .release update) :
    Served b (Function.update pc t p) := by
  have hkeep : ∀ f : Point → ℕ, f p = f .idle →
      total f (Function.update pc t p) = total f pc := by
    intro f hf
    rw [← hidle] at hf
    exact total_update_of_eq hf
  have hzero : p.restores = 0 ∧ p.posts = 0 ∧ p.backfills = 0 := by
    rcases hp with ⟨rfl, -⟩ | rfl <;> exact ⟨rfl, rfl, rfl⟩
  obtain ⟨hnonneg, hsettled, hserved⟩ := h
  rw [← hkeep Point.restores hzero.1] at hnonneg hsettled hserved
  rw [← hkeep Point.posts hzero.2.1, ← hkeep Point.backfills hzero.2.2] at hserved
  exact ⟨hnonneg, hsettled, hserved⟩

theorem balanced_of_reachable (h : (system ι count).Reachable Room s) :
    Balanced count s.buffers s.pc s.released s.acquired := by
  refine h.invariant
    (P := fun s => Balanced count s.buffers s.pc s.released s.acquired) ?_ ?_
  · rintro s rfl
    have hdiv : (count * token : ℤ) / token = count := by
      simp only [token]
      omega
    have hmod : (count * token : ℤ) % token = 0 := by
      simp only [token]
      omega
    constructor
    · simp only [start, token]
      omega
    · simp [start, hmod, total, Point.waiters]
    · simp [start, hdiv, total, Point.inFlight]
    · intro t
      trivial
    · intro t hwait
      cases hwait
  · intro s l s' hbalanced hroom hstep
    rcases step_cases hstep with ⟨t, p, update, hidle, hp, rfl⟩ |
      ⟨t, choice, b', taken, p, rfl, heffect, rfl⟩
    · exact balanced_call hbalanced hidle hp
    · exact balanced_effect hbalanced hroom heffect

theorem served_of_reachable
    (h : (system ι count).Reachable (fun s l => Room s l ∧ Calm s l) s) :
    Served s.buffers s.pc := by
  have hboth : (system ι count).Reachable Room s ∧ Served s.buffers s.pc := by
    refine h.invariant
      (P := fun s => (system ι count).Reachable Room s ∧ Served s.buffers s.pc)
      ?_ ?_
    · intro s hs
      refine ⟨System.Reachable.of_start hs, ?_⟩
      obtain rfl : s = start ι count := hs
      have hzero : total Point.restores (start ι count).pc = 0 :=
        total_const_zero _ _ fun _ => rfl
      constructor <;> rw [hzero] <;> simp [start]
    · rintro s l s' ⟨hreach, hserved⟩ ⟨hroom, hcalm⟩ hstep
      refine ⟨hreach.step hroom hstep, ?_⟩
      rcases step_cases hstep with ⟨t, p, update, hidle, hp, rfl⟩ |
        ⟨t, choice, b', taken, p, rfl, heffect, rfl⟩
      · exact served_call hserved hidle hp
      · refine served_effect hserved (balanced_of_reachable hreach).sound ?_ heffect
        intro update hpc
        simp only [Calm, State.Calm, hpc] at hcalm
        exact total_const_zero _ _ hcalm
  exact hboth.2

/-! ### Below `max()` -/

/-- No more than `limit` tokens, the `max()` of the semaphore, are free or on
their way at a time. -/
def WithinMax (limit count : ℕ) (s : State ι) : Label ι → Prop
  | .release _ update => count + s.released + update ≤ s.acquired + limit
  | _ => True

omit [DecidableEq ι] [Fintype ι] in
instance (limit count : ℕ) (s : State ι) : (l : Label ι) → Decidable (WithinMax limit count s l)
  | .release _ _ => inferInstanceAs (Decidable (_ ≤ _))
  | .acquire _ | .step _ _ => inferInstanceAs (Decidable True)

theorem covered_of_reachable (h : (system ι count).Reachable Room s) :
    0 ≤ s.buffers.back + total Point.restores s.pc := by
  have hboth : (system ι count).Reachable Room s ∧
      0 ≤ s.buffers.back + total Point.restores s.pc := by
    refine h.invariant (P := fun s => (system ι count).Reachable Room s ∧
      0 ≤ s.buffers.back + total Point.restores s.pc) ?_ ?_
    · intro s hs
      refine ⟨System.Reachable.of_start hs, ?_⟩
      obtain rfl : s = start ι count := hs
      exact Int.natCast_nonneg _
    · rintro s l s' ⟨hreach, hcovered⟩ hroom hstep
      refine ⟨hreach.step hroom hstep, ?_⟩
      rcases step_cases hstep with ⟨t, p, update, hidle, hp, rfl⟩ |
        ⟨t, choice, b', taken, p, rfl, heffect, rfl⟩
      · have hzero : p.restores = (s.pc t).restores := by
          rw [hidle]
          rcases hp with ⟨rfl, -⟩ | rfl <;> rfl
        dsimp only
        rwa [total_update_of_eq hzero]
      · exact covered_effect hcovered (balanced_of_reachable hreach).sound heffect
  exact hboth.2

omit [Fintype ι] in
theorem available_le {limit : ℕ} (hcount : count ≤ limit)
    (h : (system ι count).Reachable (WithinMax limit count) s) :
    count + s.released ≤ s.acquired + limit := by
  refine h.invariant (P := fun s => count + s.released ≤ s.acquired + limit) ?_ ?_
  · rintro s rfl
    simpa only [start, Nat.add_zero, Nat.zero_add] using hcount
  · intro s l s' hle hcond hstep
    cases l with
    | acquire t =>
        obtain ⟨-, hsome⟩ := Option.ite_none_right_eq_some.mp hstep
        cases hsome
        exact hle
    | release t update =>
        obtain ⟨-, hsome⟩ := Option.ite_none_right_eq_some.mp hstep
        cases hsome
        rw [← Nat.add_assoc]
        exact hcond
    | step t choice =>
        obtain ⟨⟨b', taken, p⟩, -, rfl⟩ := Option.map_eq_some_iff.mp hstep
        dsimp only
        omega

omit [DecidableEq ι] in
theorem restores_le_inFlight (pc : ι → Point) :
    total Point.restores pc ≤ total Point.inFlight pc := by
  refine Finset.sum_le_sum fun t _ => ?_
  cases pc t with
  | refill posts restore => exact Nat.le_add_left restore posts
  | _ => exact Nat.zero_le _

/-- Where no more than `max()` tokens are free or on their way, the words and the
shifted update of a release are values of a `ptrdiff_t`; the back buffer is below
zero by no more than the backfills add again. -/
theorem words_fit {limit : ℕ} (hlimit : limit < 2147483648) (hcount : count ≤ limit)
    (h : (system ι count).Reachable (fun s l => Room s l ∧ WithinMax limit count s l) s) :
    (0 ≤ s.buffers.front ∧ s.buffers.front < 9223372036854775808) ∧
      (-(total Point.restores s.pc : ℤ) ≤ s.buffers.back ∧ s.buffers.back ≤ limit) ∧
      ∀ t update, s.pc t = .release update → update * token < 9223372036854775808 := by
  have hroom : (system ι count).Reachable Room s := h.mono fun _ _ hcond => hcond.1
  have hbalanced := balanced_of_reachable hroom
  have hcovered := covered_of_reachable hroom
  have havailable := available_le hcount (h.mono fun _ _ hcond => hcond.2)
  have hfront := hbalanced.nonneg
  have hconserved := hbalanced.conserved
  have hpart := restores_le_inFlight s.pc
  have hupper : 0 ≤ s.buffers.front / token := Int.ediv_nonneg hfront (by decide)
  refine ⟨⟨hfront, ?_⟩, ⟨by omega, by omega⟩, fun t update hpc => ?_⟩
  · have hhalf : s.buffers.front / token ≤ limit := by omega
    simp only [token] at hhalf
    omega
  · have hnone := total_update Point.restores s.pc t .idle
    have hothers := total_update Point.inFlight s.pc t .idle
    have hrest := restores_le_inFlight (Function.update s.pc t .idle)
    rw [hpc] at hnone hothers
    simp only [Point.restores, Point.inFlight] at hnone hothers
    have hupdate : (update : ℤ) ≤ limit := by omega
    simp only [token]
    omega

/-- In every run in which the recorded acquirers fit in their half of the word,
tokens are conserved.  If moreover no release uses the back buffer during a
backfill, then no token is left in the buffers while an acquirer is blocked and
nobody moves. -/
theorem native_tokens (count : ℕ) (h : (system ι count).Reachable Room s) :
    (count : ℤ) + s.released =
      s.acquired + s.buffers.front >>> (32 : ℕ) + s.buffers.back + s.buffers.native +
        total Point.inFlight s.pc ∧
    ((system ι count).Reachable (fun s l => Room s l ∧ Calm s l) s →
      Quiescent s → (∃ t, s.pc t = .wait) →
      s.buffers.front >>> (32 : ℕ) = 0 ∧ s.buffers.back = 0) := by
  have hbalanced := balanced_of_reachable h
  rw [shift_eq]
  refine ⟨hbalanced.conserved, ?_⟩
  rintro hcalm ⟨hquiet, hnative⟩ ⟨t, hwait⟩
  refine ⟨hbalanced.wait t hwait, ?_⟩
  have hserved := served_of_reachable hcalm
  have hzero : ∀ (f : Point → ℕ), f .idle = 0 → f .wait = 0 → total f s.pc = 0 := by
    intro f hidle hblocked
    refine total_const_zero f s.pc fun w => ?_
    rcases hquiet w with hw | hw
    · rw [hw, hidle]
    · rw [hw, hblocked]
  have hnonneg := hserved.nonneg
  have hnone := hserved.served
  rw [hzero Point.restores rfl rfl] at hnonneg hnone
  rw [hzero Point.posts rfl rfl, hzero Point.backfills rfl rfl, hnative] at hnone
  omega

/-- An acquirer finds no token, is recorded, and goes to wait. -/
def blocks {n : ℕ} (t : Fin n) : List (Label (Fin n)) :=
  [.acquire t, .step t .timeExpired, .step t .ordinary]

def steps {n : ℕ} (t : Fin n) (k : ℕ) : List (Label (Fin n)) :=
  List.replicate k (.step t .ordinary)

/-- Four acquirers are blocked and three tokens released at once: the first
acquirer that is let through posts the token of the back buffer. -/
theorem native_tokens_three :
    ∃ s, (system (Fin 5) 0).exec (fun s l => Room s l ∧ Calm s l) (start (Fin 5) 0)
        (blocks 0 ++ blocks 1 ++ blocks 2 ++ blocks 3 ++ .release 4 3 :: steps 4 4 ++
          steps 0 5 ++ steps 1 4 ++ steps 2 4) = some s ∧
      s.pc 3 = .wait ∧ s.buffers.front >>> (32 : ℕ) = 0 ∧ s.buffers.back = 0 := by
  obtain ⟨s, hs, hwait, hquiet⟩ : ∃ s,
      (system (Fin 5) 0).exec (fun s l => Room s l ∧ Calm s l) (start (Fin 5) 0)
        (blocks 0 ++ blocks 1 ++ blocks 2 ++ blocks 3 ++ .release 4 3 :: steps 4 4 ++
          steps 0 5 ++ steps 1 4 ++ steps 2 4) = some s ∧
      s.pc 3 = .wait ∧ (∀ t, s.pc t = .idle ∨ s.pc t = .wait) ∧
      s.buffers.native = 0 :=
    ⟨_, rfl, by decide, by decide, by decide⟩
  have hcalm := System.reachable_of_exec (S := system (Fin 5) 0) rfl hs
  refine ⟨s, hs, hwait, ?_⟩
  exact (native_tokens 0 (hcalm.mono fun _ _ => And.left)).2 hcalm hquiet ⟨3, hwait⟩

/-- Three acquirers are blocked.  One token lets the first through, which finds
the back buffer empty and has yet to add again the two it has subtracted.  Of
three more tokens one goes to the back buffer; the two acquirers that are let
through find it empty too.  Then the first adds the two again, and when it comes
back it is blocked, with a token in the back buffer and nobody to post it. -/
theorem native_token_stranded :
    ¬ ∀ s, (system (Fin 4) 0).Reachable Room s → Quiescent s →
      (∃ t, s.pc t = .wait) → s.buffers.front >>> (32 : ℕ) = 0 ∧ s.buffers.back = 0 := by
  intro h
  obtain ⟨s, hs, hwait, hquiet, hback⟩ : ∃ s,
      (system (Fin 4) 0).exec Room (start (Fin 4) 0)
        (blocks 0 ++ blocks 1 ++ blocks 2 ++ .release 3 1 :: steps 3 2 ++ steps 0 3 ++
          .release 3 3 :: steps 3 4 ++ steps 1 4 ++ steps 2 4 ++ steps 0 1 ++
          blocks 0) = some s ∧
      s.pc 0 = .wait ∧
      ((∀ t, s.pc t = .idle ∨ s.pc t = .wait) ∧ s.buffers.native = 0) ∧
      s.buffers.back = 1 :=
    ⟨_, rfl, by decide, by decide, by decide⟩
  have hempty := h s (System.reachable_of_exec rfl hs) hquiet ⟨0, hwait⟩
  rw [hback] at hempty
  exact absurd hempty.2 (by decide)

end Libhipcxx.Semaphore.Native
