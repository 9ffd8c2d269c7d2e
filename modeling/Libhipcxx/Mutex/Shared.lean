import Libhipcxx.Support.Monitor
import Libhipcxx.Support.Threads

/-!
# The shared mutex

`__shared_mutex_base`, with the timed operations of `shared_timed_mutex`.  One
word holds a flag, set from the moment a writer has entered, and the number of
the readers.  At the first gate wait those that find a writer entered, at the
second the writer until the readers have left.
-/

namespace Libhipcxx.Mutex.Shared

open Transition Monitor Threads

def writeEntered : BitVec 32 := 1#32 <<< 31

def nReaders : BitVec 32 := ~~~writeEntered

inductive Gate where
  | gate1
  | gate2
  deriving DecidableEq

/-- Outside the mutex `__mut_`: nothing held, the points that follow a wait, and
the two kinds of ownership.  The flag of a timed wait says that it timed out. -/
inductive Point where
  | free
  | lock
  | lockReaders
  | lockUntil (timedOut : Bool)
  | lockUntilReaders (timedOut : Bool)
  | owns
  | lockShared
  | lockSharedUntil (timedOut : Bool)
  | shares
  deriving DecidableEq

/-- What a thread that holds nothing calls; `go` is any other step. -/
inductive Call where
  | lock
  | tryLock
  | tryLockUntil
  | lockShared
  | tryLockShared
  | tryLockSharedUntil
  | go
  deriving DecidableEq

abbrev Result := BitVec 32 × Next Gate Point × Option (Notify Gate)

/-- `while (__state_ & __n_readers_) __gate2_.wait(lk)`. -/
def lockReaders (state : BitVec 32) : Result :=
  if state &&& nReaders ≠ 0 then (state, .wait .gate2 .lockReaders, none)
  else (state, .goto .owns, none)

def lock (state : BitVec 32) : Result :=
  if state &&& writeEntered ≠ 0 then (state, .wait .gate1 .lock, none)
  else lockReaders (state ||| writeEntered)

def tryLock (state : BitVec 32) : Result :=
  if state = 0 then (writeEntered, .goto .owns, none) else (state, .goto .free, none)

def unlock (_ : BitVec 32) : Result := (0, .goto .free, some (.all .gate1))

/-- The readers are stored again. -/
def setReaders (state readers : BitVec 32) : BitVec 32 := (state &&& ~~~nReaders) ||| readers

def share (state : BitVec 32) : Result :=
  (setReaders state ((state &&& nReaders) + 1), .goto .shares, none)

def lockShared (state : BitVec 32) : Result :=
  if state &&& writeEntered ≠ 0 ∨ state &&& nReaders = nReaders then
    (state, .wait .gate1 .lockShared, none)
  else share state

def tryLockShared (state : BitVec 32) : Result :=
  if state &&& writeEntered = 0 ∧ state &&& nReaders ≠ nReaders then share state
  else (state, .goto .free, none)

def unlockShared (state : BitVec 32) : Result :=
  let readers := (state &&& nReaders) - 1
  let state := setReaders state readers
  (state, .goto .free,
    if state &&& writeEntered ≠ 0 then
      if readers = 0 then some (.one .gate2) else none
    else
      if readers = nReaders - 1 then some (.one .gate1) else none)

/-- The second half of `try_lock_until`. -/
def enterUntil (state : BitVec 32) : Result :=
  if state &&& nReaders ≠ 0 then (state, .wait .gate2 (.lockUntilReaders false), none)
  else (state, .goto .owns, none)

def tryLockUntil (state : BitVec 32) : Result :=
  if state &&& writeEntered ≠ 0 then (state, .wait .gate1 (.lockUntil false), none)
  else enterUntil (state ||| writeEntered)

/-- `try_lock_until`, after a wait on the first gate. -/
def lockUntil (timedOut : Bool) (state : BitVec 32) : Result :=
  if state &&& writeEntered = 0 then enterUntil (state ||| writeEntered)
  else if timedOut then (state, .goto .free, none)
  else (state, .wait .gate1 (.lockUntil false), none)

/-- `try_lock_until`, after a wait on the second gate. -/
def lockUntilReaders (timedOut : Bool) (state : BitVec 32) : Result :=
  if state &&& nReaders = 0 then (state, .goto .owns, none)
  else if timedOut then (state &&& ~~~writeEntered, .goto .free, some (.all .gate1))
  else (state, .wait .gate2 (.lockUntilReaders false), none)

def tryLockSharedUntil (state : BitVec 32) : Result :=
  if state &&& writeEntered ≠ 0 ∨ state &&& nReaders = nReaders then
    (state, .wait .gate1 (.lockSharedUntil false), none)
  else share state

/-- `try_lock_shared_until`, after a wait. -/
def lockSharedUntil (timedOut : Bool) (state : BitVec 32) : Result :=
  if state &&& writeEntered = 0 ∧ (state &&& nReaders) < nReaders then share state
  else if timedOut then (state, .goto .free, none)
  else (state, .wait .gate1 (.lockSharedUntil false), none)

def block : Point → Call → BitVec 32 → Option Result
  | .free, .lock, state => some (lock state)
  | .free, .tryLock, state => some (tryLock state)
  | .free, .tryLockUntil, state => some (tryLockUntil state)
  | .free, .lockShared, state => some (lockShared state)
  | .free, .tryLockShared, state => some (tryLockShared state)
  | .free, .tryLockSharedUntil, state => some (tryLockSharedUntil state)
  | .lock, .go, state => some (lock state)
  | .lockReaders, .go, state => some (lockReaders state)
  | .lockUntil timedOut, .go, state => some (lockUntil timedOut state)
  | .lockUntilReaders timedOut, .go, state => some (lockUntilReaders timedOut state)
  | .owns, .go, state => some (unlock state)
  | .lockShared, .go, state => some (lockShared state)
  | .lockSharedUntil timedOut, .go, state => some (lockSharedUntil timedOut state)
  | .shares, .go, state => some (unlockShared state)
  | _, _, _ => none

def timeout : Point → Option Point
  | .lockUntil _ => some (.lockUntil true)
  | .lockUntilReaders _ => some (.lockUntilReaders true)
  | .lockSharedUntil _ => some (.lockSharedUntil true)
  | _ => none

def program (ι : Type) : Program ι (BitVec 32) Gate Point Call where
  block _ := block
  timeout := timeout

def start (ι : Type) : Monitor.State ι (BitVec 32) Gate Point where
  shared := 0
  place _ := .ready .free

/-! ## The word -/

/-- The word with a writer entered or not, and a number of readers. -/
def word (writer : Bool) (readers : ℕ) : BitVec 32 :=
  (if writer then writeEntered else 0) ||| BitVec.ofNat 32 readers

variable {writer : Bool} {readers : ℕ} {i : ℕ}

theorem getLsbD_writeEntered (i : ℕ) : writeEntered.getLsbD i = decide (i = 31) := by
  rw [writeEntered, BitVec.getLsbD_shiftLeft, BitVec.getLsbD_one]
  by_cases hi : i = 31
  · subst hi
    decide
  · grind

theorem getLsbD_nReaders (hi : i < 32) : nReaders.getLsbD i = decide (i ≠ 31) := by
  rw [nReaders, BitVec.getLsbD_not, getLsbD_writeEntered, decide_eq_true hi, Bool.true_and,
    decide_not]

/-- The top bit is the flag, and the others are the number. -/
theorem getLsbD_word (hreaders : readers < 2 ^ 31) (hi : i < 32) :
    (word writer readers).getLsbD i = if i = 31 then writer else readers.testBit i := by
  have hflag : (if writer then writeEntered else 0).getLsbD i = (writer && decide (i = 31)) := by
    cases writer with
    | true =>
      rw [if_pos rfl, getLsbD_writeEntered, Bool.true_and]
    | false =>
      rw [if_neg Bool.false_ne_true, Bool.false_and]
      exact BitVec.getLsbD_zero
  rw [word, BitVec.getLsbD_or, hflag, BitVec.getLsbD_ofNat, decide_eq_true hi, Bool.true_and]
  by_cases htop : i = 31
  · rw [if_pos htop, htop, decide_eq_true rfl, Nat.testBit_lt_two_pow hreaders, Bool.and_true,
      Bool.or_false]
  · rw [if_neg htop, decide_eq_false htop, Bool.and_false, Bool.false_or]

theorem word_and_writeEntered (hreaders : readers < 2 ^ 31) :
    word writer readers &&& writeEntered = word writer 0 := by
  refine BitVec.eq_of_getLsbD_eq fun i hi => ?_
  rw [BitVec.getLsbD_and, getLsbD_word hreaders hi, getLsbD_word (Nat.two_pow_pos 31) hi,
    getLsbD_writeEntered]
  by_cases htop : i = 31
  · rw [if_pos htop, if_pos htop, decide_eq_true htop, Bool.and_true]
  · rw [if_neg htop, if_neg htop, decide_eq_false htop, Bool.and_false, Nat.zero_testBit]

theorem word_and_nReaders (hreaders : readers < 2 ^ 31) :
    word writer readers &&& nReaders = word false readers := by
  refine BitVec.eq_of_getLsbD_eq fun i hi => ?_
  rw [BitVec.getLsbD_and, getLsbD_word hreaders hi, getLsbD_word hreaders hi,
    getLsbD_nReaders hi]
  by_cases htop : i = 31
  · rw [if_pos htop, if_pos htop, decide_eq_false (not_not.mpr htop), Bool.and_false]
  · rw [if_neg htop, if_neg htop, decide_eq_true htop, Bool.and_true]

theorem word_or_writeEntered (hreaders : readers < 2 ^ 31) :
    word writer readers ||| writeEntered = word true readers := by
  refine BitVec.eq_of_getLsbD_eq fun i hi => ?_
  rw [BitVec.getLsbD_or, getLsbD_word hreaders hi, getLsbD_word hreaders hi,
    getLsbD_writeEntered]
  by_cases htop : i = 31
  · rw [if_pos htop, if_pos htop, decide_eq_true htop, Bool.or_true]
  · rw [if_neg htop, if_neg htop, decide_eq_false htop, Bool.or_false]

theorem word_and_not_nReaders (hreaders : readers < 2 ^ 31) :
    word writer readers &&& ~~~nReaders = word writer 0 := by
  rw [nReaders, BitVec.not_not, word_and_writeEntered hreaders]

theorem word_and_not_writeEntered (hreaders : readers < 2 ^ 31) :
    word writer readers &&& ~~~writeEntered = word false readers :=
  word_and_nReaders hreaders

theorem word_or_readers : word writer 0 ||| word false readers = word writer readers := by
  simp only [word, Bool.false_eq_true, if_false, BitVec.ofNat_eq_ofNat, BitVec.or_zero,
    BitVec.zero_or]

theorem toNat_word_false (hreaders : readers < 2 ^ 31) :
    (word false readers).toNat = readers := by
  rw [word, if_neg Bool.false_ne_true, BitVec.ofNat_eq_ofNat, BitVec.zero_or, BitVec.toNat_ofNat]
  exact Nat.mod_eq_of_lt (lt_trans hreaders (by decide))

theorem toNat_nReaders : nReaders.toNat = 2 ^ 31 - 1 := rfl

theorem word_writer_ne_zero : word writer 0 ≠ 0 ↔ writer = true := by
  cases writer <;> decide

theorem word_readers_ne_zero (hreaders : readers < 2 ^ 31) : word false readers ≠ 0 ↔ readers ≠ 0 := by
  rw [ne_eq, ← BitVec.toNat_inj, toNat_word_false hreaders]
  rfl

theorem word_eq_nReaders (hreaders : readers < 2 ^ 31) :
    word false readers = nReaders ↔ readers + 1 = 2 ^ 31 := by
  rw [← BitVec.toNat_inj, toNat_word_false hreaders, toNat_nReaders]
  omega

theorem word_add_one : word false readers + 1 = word false (readers + 1) := by
  simp only [word, Bool.false_eq_true, if_false, BitVec.ofNat_eq_ofNat, BitVec.zero_or,
    BitVec.ofNat_add]

theorem word_succ_sub_one : word false (readers + 1) - 1 = word false readers := by
  rw [← word_add_one, BitVec.add_sub_cancel]

/-! ## The two kinds of ownership -/

namespace Point

/-- The thread has not taken anything of the word. -/
def Outside : Point → Prop
  | .free | .lock | .lockUntil _ | .lockShared | .lockSharedUntil _ => True
  | .lockReaders | .lockUntilReaders _ | .owns | .shares => False

/-- The thread waits for the readers to leave. -/
def Inside : Point → Prop
  | .lockReaders | .lockUntilReaders _ => True
  | .free | .lock | .lockUntil _ | .owns | .lockShared | .lockSharedUntil _ | .shares => False

/-- The flag is this thread's. -/
def entered : Point → ℕ
  | .lockReaders | .lockUntilReaders _ | .owns => 1
  | .free | .lock | .lockUntil _ | .lockShared | .lockSharedUntil _ | .shares => 0

def sharing : Point → ℕ
  | .shares => 1
  | .free | .lock | .lockReaders | .lockUntil _ | .lockUntilReaders _ | .owns | .lockShared
  | .lockSharedUntil _ => 0

theorem sharing_le_one (p : Point) : p.sharing ≤ 1 := by
  cases p <;> first | exact Nat.zero_le 1 | exact Nat.le_refl 1

variable {p : Point}

theorem Outside.entered (h : p.Outside) : p.entered = 0 := by
  cases p <;> first | rfl | exact h.elim

theorem Outside.sharing (h : p.Outside) : p.sharing = 0 := by
  cases p <;> first | rfl | exact h.elim

theorem Inside.entered (h : p.Inside) : p.entered = 1 := by
  cases p <;> first | rfl | exact h.elim

theorem Inside.sharing (h : p.Inside) : p.sharing = 0 := by
  cases p <;> first | rfl | exact h.elim

end Point

/-- What a step does to the flag and to the number of readers. -/
inductive Effect : Point → Bool → ℕ → Bool → ℕ → Next Gate Point → Option (Notify Gate) → Prop
  | refuse {p w r} (hp : p.Outside) : Effect p w r w r (.goto .free) none
  | waitGate1 {p p' w r} (hp : p.Outside) (hp' : p'.Outside) (hclosed : w = true ∨ r + 1 = 2 ^ 31) :
      Effect p w r w r (.wait .gate1 p') none
  | enter {p p' r} (hp : p.Outside) (hp' : p'.Inside) (hr : r ≠ 0) :
      Effect p false r true r (.wait .gate2 p') none
  | enterAtOnce {p} (hp : p.Outside) : Effect p false 0 true 0 (.goto .owns) none
  | waitGate2 {p p' w r} (hp : p.Inside) (hp' : p'.Inside) (hr : r ≠ 0) :
      Effect p w r w r (.wait .gate2 p') none
  | own {p w} (hp : p.Inside) : Effect p w 0 w 0 (.goto .owns) none
  | release {w r} : Effect .owns w r false 0 (.goto .free) (some (.all .gate1))
  | giveUp {p w r} (hp : p.Inside) : Effect p w r false r (.goto .free) (some (.all .gate1))
  | share {p r} (hp : p.Outside) (hr : r + 1 < 2 ^ 31) :
      Effect p false r false (r + 1) (.goto .shares) none
  | unshare {w r} : Effect .shares w (r + 1) w r (.goto .free)
      (if w = true then if r = 0 then some (.one .gate2) else none
        else if r + 2 = 2 ^ 31 then some (.one .gate1) else none)

/-- The result is one that the word stands for. -/
def Effective (p : Point) (w : Bool) (r : ℕ) (x : Result) : Prop :=
  ∃ w' r', r' < 2 ^ 31 ∧ x.1 = word w' r' ∧ Effect p w r w' r' x.2.1 x.2.2

variable {p : Point}

theorem share_effective (hp : p.Outside) (hreaders : readers < 2 ^ 31)
    (hopen : readers + 1 ≠ 2 ^ 31) : Effective p false readers (share (word false readers)) := by
  have hmore : readers + 1 < 2 ^ 31 := lt_of_le_of_ne hreaders hopen
  refine ⟨false, readers + 1, hmore, ?_, Effect.share hp hmore⟩
  rw [share, setReaders, word_and_nReaders hreaders, word_and_not_nReaders hreaders, word_add_one,
    word_or_readers]

/-- Both `lock` and `try_lock_until` take the flag and look at the readers. -/
theorem enter_effective (hp : p.Outside) {p' : Point} (hp' : p'.Inside)
    (hreaders : readers < 2 ^ 31) :
    Effective p false readers
      (if word true readers &&& nReaders ≠ 0 then (word true readers, .wait .gate2 p', none)
        else (word true readers, .goto .owns, none)) := by
  rw [word_and_nReaders hreaders]
  split_ifs with hsome
  · exact ⟨true, readers, hreaders, rfl,
      Effect.enter hp hp' ((word_readers_ne_zero hreaders).mp hsome)⟩
  · rw [word_readers_ne_zero hreaders, not_not] at hsome
    subst hsome
    exact ⟨true, 0, hreaders, rfl, Effect.enterAtOnce hp⟩

theorem lock_effective (hp : p.Outside) (hreaders : readers < 2 ^ 31) :
    Effective p writer readers (lock (word writer readers)) := by
  rw [lock, word_and_writeEntered hreaders, word_or_writeEntered hreaders, lockReaders]
  by_cases hwriter : writer = true
  · rw [if_pos (word_writer_ne_zero.mpr hwriter)]
    exact ⟨writer, readers, hreaders, rfl, Effect.waitGate1 hp trivial (Or.inl hwriter)⟩
  · rw [if_neg (mt word_writer_ne_zero.mp hwriter)]
    rw [Bool.not_eq_true] at hwriter
    subst hwriter
    exact enter_effective hp trivial hreaders

theorem tryLock_effective (hp : p.Outside) (hreaders : readers < 2 ^ 31) :
    Effective p writer readers (tryLock (word writer readers)) := by
  rw [tryLock]
  split_ifs with hzero
  · have hnone : readers = 0 := by
      have hmasked : word writer readers &&& nReaders = word false readers :=
        word_and_nReaders hreaders
      rw [hzero] at hmasked
      have hempty : word false readers = 0 := hmasked.symm.trans (by decide)
      exact not_not.mp (mt (word_readers_ne_zero hreaders).mpr (not_not.mpr hempty))
    subst hnone
    have hfree : ¬writer = true := mt word_writer_ne_zero.mpr (not_not.mpr hzero)
    rw [Bool.not_eq_true] at hfree
    subst hfree
    exact ⟨true, 0, hreaders, by decide, Effect.enterAtOnce hp⟩
  · exact ⟨writer, readers, hreaders, rfl, Effect.refuse hp⟩

theorem lockReaders_effective (hp : p.Inside) (hreaders : readers < 2 ^ 31) :
    Effective p writer readers (lockReaders (word writer readers)) := by
  rw [lockReaders, word_and_nReaders hreaders]
  split_ifs with hsome
  · exact ⟨writer, readers, hreaders, rfl,
      Effect.waitGate2 hp trivial ((word_readers_ne_zero hreaders).mp hsome)⟩
  · rw [word_readers_ne_zero hreaders, not_not] at hsome
    subst hsome
    exact ⟨writer, 0, hreaders, rfl, Effect.own hp⟩

theorem tryLockUntil_effective (hp : p.Outside) (hreaders : readers < 2 ^ 31) :
    Effective p writer readers (tryLockUntil (word writer readers)) := by
  rw [tryLockUntil, word_and_writeEntered hreaders, word_or_writeEntered hreaders, enterUntil]
  by_cases hwriter : writer = true
  · rw [if_pos (word_writer_ne_zero.mpr hwriter)]
    exact ⟨writer, readers, hreaders, rfl, Effect.waitGate1 hp trivial (Or.inl hwriter)⟩
  · rw [if_neg (mt word_writer_ne_zero.mp hwriter)]
    rw [Bool.not_eq_true] at hwriter
    subst hwriter
    exact enter_effective hp trivial hreaders

theorem lockUntil_effective (hp : p.Outside) (timedOut : Bool) (hreaders : readers < 2 ^ 31) :
    Effective p writer readers (lockUntil timedOut (word writer readers)) := by
  rw [lockUntil, word_and_writeEntered hreaders, word_or_writeEntered hreaders, enterUntil]
  by_cases hwriter : writer = true
  · rw [if_neg (word_writer_ne_zero.mpr hwriter)]
    split_ifs
    · exact ⟨writer, readers, hreaders, rfl, Effect.refuse hp⟩
    · exact ⟨writer, readers, hreaders, rfl, Effect.waitGate1 hp trivial (Or.inl hwriter)⟩
  · rw [if_pos (not_not.mp (mt word_writer_ne_zero.mp hwriter))]
    rw [Bool.not_eq_true] at hwriter
    subst hwriter
    exact enter_effective hp trivial hreaders

theorem lockUntilReaders_effective (hp : p.Inside) (timedOut : Bool) (hreaders : readers < 2 ^ 31) :
    Effective p writer readers (lockUntilReaders timedOut (word writer readers)) := by
  rw [lockUntilReaders, word_and_nReaders hreaders, word_and_not_writeEntered hreaders]
  split_ifs with hnone
  · have hzero : readers = 0 :=
      not_not.mp (mt (word_readers_ne_zero hreaders).mpr (not_not.mpr hnone))
    subst hzero
    exact ⟨writer, 0, hreaders, rfl, Effect.own hp⟩
  · exact ⟨false, readers, hreaders, rfl, Effect.giveUp hp⟩
  · exact ⟨writer, readers, hreaders, rfl,
      Effect.waitGate2 hp trivial ((word_readers_ne_zero hreaders).mp hnone)⟩

/-- The first gate is closed to readers. -/
theorem closed_iff (hreaders : readers < 2 ^ 31) :
    word writer readers &&& writeEntered ≠ 0 ∨ word writer readers &&& nReaders = nReaders ↔
      writer = true ∨ readers + 1 = 2 ^ 31 := by
  rw [word_and_writeEntered hreaders, word_and_nReaders hreaders, word_writer_ne_zero,
    word_eq_nReaders hreaders]

/-- `<` where `lock_shared` has `!=`. -/
theorem open_iff (hreaders : readers < 2 ^ 31) :
    word writer readers &&& writeEntered = 0 ∧ word writer readers &&& nReaders < nReaders ↔
      ¬(writer = true ∨ readers + 1 = 2 ^ 31) := by
  rw [word_and_writeEntered hreaders, word_and_nReaders hreaders, not_or, ← word_writer_ne_zero,
    not_not, BitVec.lt_def, toNat_word_false hreaders, toNat_nReaders]
  refine and_congr_right fun _ => ?_
  omega

theorem share_or_wait_effective (hp : p.Outside) {p' : Point} (hp' : p'.Outside)
    (hreaders : readers < 2 ^ 31) :
    Effective p writer readers
      (if writer = true ∨ readers + 1 = 2 ^ 31 then (word writer readers, .wait .gate1 p', none)
        else share (word writer readers)) := by
  split_ifs with hclosed
  · exact ⟨writer, readers, hreaders, rfl, Effect.waitGate1 hp hp' hclosed⟩
  · obtain ⟨hwriter, hopen⟩ := not_or.mp hclosed
    rw [Bool.not_eq_true] at hwriter
    subst hwriter
    exact share_effective hp hreaders hopen

theorem lockShared_effective (hp : p.Outside) (hreaders : readers < 2 ^ 31) :
    Effective p writer readers (lockShared (word writer readers)) := by
  simp only [lockShared, closed_iff hreaders]
  exact share_or_wait_effective hp trivial hreaders

theorem tryLockSharedUntil_effective (hp : p.Outside) (hreaders : readers < 2 ^ 31) :
    Effective p writer readers (tryLockSharedUntil (word writer readers)) := by
  simp only [tryLockSharedUntil, closed_iff hreaders]
  exact share_or_wait_effective hp trivial hreaders

theorem tryLockShared_effective (hp : p.Outside) (hreaders : readers < 2 ^ 31) :
    Effective p writer readers (tryLockShared (word writer readers)) := by
  have hiff : word writer readers &&& writeEntered = 0 ∧
      word writer readers &&& nReaders ≠ nReaders ↔ ¬(writer = true ∨ readers + 1 = 2 ^ 31) := by
    rw [← closed_iff hreaders, not_or, not_not]
  simp only [tryLockShared, hiff]
  split_ifs with hclosed
  · exact ⟨writer, readers, hreaders, rfl, Effect.refuse hp⟩
  · obtain ⟨hwriter, hopen⟩ := not_or.mp hclosed
    rw [Bool.not_eq_true] at hwriter
    subst hwriter
    exact share_effective hp hreaders hopen

theorem lockSharedUntil_effective (hp : p.Outside) (timedOut : Bool) (hreaders : readers < 2 ^ 31) :
    Effective p writer readers (lockSharedUntil timedOut (word writer readers)) := by
  simp only [lockSharedUntil, open_iff hreaders, ite_not]
  cases timedOut with
  | true =>
    rw [if_pos rfl]
    split_ifs with hclosed
    · exact ⟨writer, readers, hreaders, rfl, Effect.refuse hp⟩
    · have hshare : Effective p writer readers _ := share_or_wait_effective hp hp hreaders
      rwa [if_neg hclosed] at hshare
  | false =>
    exact share_or_wait_effective hp trivial hreaders

theorem unlockShared_effective (hreaders : readers + 1 < 2 ^ 31) :
    Effective .shares writer (readers + 1) (unlockShared (word writer (readers + 1))) := by
  have hless : readers < 2 ^ 31 := Nat.lt_of_succ_lt hreaders
  have hlast : word false readers = nReaders - 1 ↔ readers + 2 = 2 ^ 31 := by
    rw [← BitVec.toNat_inj, toNat_word_false hless, show (nReaders - 1).toNat = 2 ^ 31 - 2 from rfl]
    omega
  have hnone : word false readers = 0 ↔ readers = 0 := by
    rw [← not_iff_not, ← ne_eq, word_readers_ne_zero hless]
  refine ⟨writer, readers, hless, ?_, ?_⟩
  · rw [unlockShared, word_and_nReaders hreaders, word_succ_sub_one, setReaders,
      word_and_not_nReaders hreaders, word_or_readers]
  · simp only [unlockShared, word_and_nReaders hreaders, word_succ_sub_one, setReaders,
      word_and_not_nReaders hreaders, word_or_readers, word_and_writeEntered hless,
      word_writer_ne_zero, hlast, hnone]
    exact Effect.unshare

/-- What any step of a thread does. -/
theorem block_effective {c : Call} {x : Result} (hreaders : readers < 2 ^ 31)
    (hshares : p = .shares → readers ≠ 0) (h : block p c (word writer readers) = some x) :
    Effective p writer readers x := by
  cases p with
  | free =>
    cases c with
    | lock => exact Option.some.inj h ▸ lock_effective trivial hreaders
    | tryLock => exact Option.some.inj h ▸ tryLock_effective trivial hreaders
    | tryLockUntil => exact Option.some.inj h ▸ tryLockUntil_effective trivial hreaders
    | lockShared => exact Option.some.inj h ▸ lockShared_effective trivial hreaders
    | tryLockShared => exact Option.some.inj h ▸ tryLockShared_effective trivial hreaders
    | tryLockSharedUntil => exact Option.some.inj h ▸ tryLockSharedUntil_effective trivial hreaders
    | go => cases h
  | lock =>
    cases c with
    | go => exact Option.some.inj h ▸ lock_effective trivial hreaders
    | _ => cases h
  | lockReaders =>
    cases c with
    | go => exact Option.some.inj h ▸ lockReaders_effective trivial hreaders
    | _ => cases h
  | lockUntil timedOut =>
    cases c with
    | go =>
      exact Option.some.inj h ▸ lockUntil_effective (p := .lockUntil timedOut) trivial timedOut hreaders
    | _ => cases h
  | lockUntilReaders timedOut =>
    cases c with
    | go =>
      exact Option.some.inj h ▸ lockUntilReaders_effective (p := .lockUntilReaders timedOut) trivial timedOut hreaders
    | _ => cases h
  | owns =>
    cases c with
    | go =>
      obtain rfl := Option.some.inj h
      have hzero : (0 : BitVec 32) = word false 0 := by decide
      exact ⟨false, 0, by decide, hzero, Effect.release⟩
    | _ => cases h
  | lockShared =>
    cases c with
    | go => exact Option.some.inj h ▸ lockShared_effective trivial hreaders
    | _ => cases h
  | lockSharedUntil timedOut =>
    cases c with
    | go =>
      exact Option.some.inj h ▸ lockSharedUntil_effective (p := .lockSharedUntil timedOut) trivial timedOut hreaders
    | _ => cases h
  | shares =>
    cases c with
    | go =>
      obtain ⟨r, rfl⟩ := Nat.exists_eq_succ_of_ne_zero (hshares rfl)
      exact Option.some.inj h ▸ unlockShared_effective hreaders
    | _ => cases h

/-! ## The invariant -/

variable {ι : Type} [Fintype ι]

/-- The flag is the one of the thread that has entered, and the number that of
the threads that share; who owns is alone. -/
structure Counted (writer : Bool) (readers : ℕ) (points : ι → Point) : Prop where
  entered : total Point.entered points = writer.toNat
  sharing : total Point.sharing points = readers
  bound : readers < 2 ^ 31
  owner : ∀ t, points t = .owns → readers = 0

def Accounted (state : BitVec 32) (points : ι → Point) : Prop :=
  ∃ writer readers, state = word writer readers ∧ Counted writer readers points

variable [DecidableEq ι] {w w' : Bool} {r r' : ℕ} {points : ι → Point} {t u : ι}

omit [DecidableEq ι] in
theorem Counted.writer_of_entered (h : Counted w r points) (ht : (points t).entered = 1) :
    w = true := by
  have hle := le_total Point.entered points t
  rw [h.entered, ht] at hle
  cases w with
  | true => rfl
  | false => exact absurd hle (by decide)

/-- No two threads have entered. -/
theorem Counted.entered_unique (h : Counted w r points) (ht : (points t).entered = 1)
    (hu : (points u).entered = 1) : u = t := by
  by_contra hne
  have hexchange := total_update Point.entered points t .free
  have hle := le_total Point.entered (Function.update points t .free) u
  rw [Function.update_of_ne hne, hu] at hle
  rw [h.entered, ht, show Point.free.entered = 0 from rfl] at hexchange
  have hone := Bool.toNat_le w
  omega

omit [DecidableEq ι] in
theorem Counted.readers_ne_zero (h : Counted w r points) (ht : points t = .shares) : r ≠ 0 := by
  have hle := le_total Point.sharing points t
  rw [h.sharing, ht] at hle
  exact Nat.one_le_iff_ne_zero.mp hle

/-- A step that moves what the thread holds along with the word. -/
theorem Counted.update {p' : Point} (h : Counted w r points) (hp : points t = p)
    (hentered : w'.toNat + p.entered = w.toNat + p'.entered)
    (hsharing : r' + p.sharing = r + p'.sharing) (hbound : r' < 2 ^ 31)
    (hfewer : r' ≤ r ∨ w = false) (howns : p' = .owns → r' = 0) :
    Counted w' r' (Function.update points t p') := by
  have htotal := total_update Point.entered points t p'
  have htotal' := total_update Point.sharing points t p'
  rw [h.entered, hp] at htotal
  rw [h.sharing, hp] at htotal'
  refine ⟨by omega, by omega, hbound, fun u hu => ?_⟩
  by_cases hut : u = t
  · rw [hut, Function.update_self] at hu
    exact howns hu
  · rw [Function.update_of_ne hut] at hu
    rcases hfewer with hle | hfalse
    · exact Nat.le_zero.mp (h.owner u hu ▸ hle)
    · have hwriter := h.writer_of_entered (show (points u).entered = 1 by rw [hu]; rfl)
      rw [hfalse] at hwriter
      exact absurd hwriter (by decide)

theorem Counted.effect {next : Next Gate Point} {n : Option (Notify Gate)}
    (h : Counted w r points) (hp : points t = p) (heffect : Effect p w r w' r' next n) :
    Counted w' r' (Function.update points t next.point) := by
  cases heffect with
  | refuse hout =>
    refine h.update hp ?_ ?_ h.bound (Or.inl le_rfl) ?_
    · rw [hout.entered]
      rfl
    · rw [hout.sharing]
      rfl
    · intro heq
      cases heq
  | waitGate1 hout hout' _ =>
    refine h.update hp ?_ ?_ h.bound (Or.inl le_rfl) ?_
    · rw [hout.entered, Next.point, hout'.entered]
    · rw [hout.sharing, Next.point, hout'.sharing]
    · rintro rfl
      exact hout'.elim
  | enter hout hin _ =>
    refine h.update hp ?_ ?_ h.bound (Or.inl le_rfl) ?_
    · rw [hout.entered, Next.point, hin.entered]
      rfl
    · rw [hout.sharing, Next.point, hin.sharing]
    · rintro rfl
      exact hin.elim
  | enterAtOnce hout =>
    refine h.update hp ?_ ?_ h.bound (Or.inl le_rfl) fun _ => rfl
    · rw [hout.entered]
      rfl
    · rw [hout.sharing]
      rfl
  | waitGate2 hin hin' _ =>
    refine h.update hp ?_ ?_ h.bound (Or.inl le_rfl) ?_
    · rw [hin.entered, Next.point, hin'.entered]
    · rw [hin.sharing, Next.point, hin'.sharing]
    · rintro rfl
      exact hin'.elim
  | own hin =>
    refine h.update hp ?_ ?_ h.bound (Or.inl le_rfl) fun _ => rfl
    · rw [hin.entered]
      rfl
    · rw [hin.sharing]
      rfl
  | release =>
    obtain rfl := h.owner t hp
    obtain rfl := h.writer_of_entered (show (points t).entered = 1 by rw [hp]; rfl)
    refine h.update hp rfl rfl h.bound (Or.inl le_rfl) ?_
    intro heq
    cases heq
  | giveUp hin =>
    obtain rfl := h.writer_of_entered (show (points t).entered = 1 by rw [hp, hin.entered])
    refine h.update hp ?_ ?_ h.bound (Or.inl le_rfl) ?_
    · rw [hin.entered]
      rfl
    · rw [hin.sharing]
      rfl
    · intro heq
      cases heq
  | share hout hmore =>
    refine h.update hp ?_ ?_ hmore (Or.inr rfl) ?_
    · rw [hout.entered]
      rfl
    · rw [hout.sharing]
      rfl
    · intro heq
      cases heq
  | unshare =>
    refine h.update hp rfl rfl (Nat.lt_of_succ_lt h.bound) (Or.inl (Nat.le_succ _)) ?_
    intro heq
    cases heq

abbrev Reachable (s : Monitor.State ι (BitVec 32) Gate Point) : Prop :=
  ((program ι).system (start ι)).Reachable (fun _ _ => True) s

variable {s s' : Monitor.State ι (BitVec 32) Gate Point}

omit [DecidableEq ι] in
/-- The effect that a step of a thread has in an accounted state. -/
theorem exists_effect {c : Call} {state : BitVec 32} {x : Result} (h : Accounted state points)
    (hp : points t = p) (hblock : block p c state = some x) :
    ∃ w r w' r', state = word w r ∧ Counted w r points ∧ r' < 2 ^ 31 ∧ x.1 = word w' r' ∧
      Effect p w r w' r' x.2.1 x.2.2 := by
  obtain ⟨w, r, rfl, hcounted⟩ := h
  obtain ⟨w', r', hbound, hword, heffect⟩ := block_effective hcounted.bound
    (fun hshares => hcounted.readers_ne_zero (hp.trans hshares)) hblock
  exact ⟨w, r, w', r', rfl, hcounted, hbound, hword, heffect⟩

theorem reachable_accounted (h : Reachable s) : Accounted s.shared s.points := by
  refine Program.reachable_invariant (I := Accounted) ⟨false, 0, rfl, ?_⟩ ?_ ?_ h
  · exact ⟨total_const_zero _ _ fun _ => rfl, total_const_zero _ _ fun _ => rfl, by decide,
      fun _ _ => rfl⟩
  · intro s t c woken p σ' next n hI _ hplace hblock
    obtain ⟨w, r, w', r', -, hcounted, -, hword, heffect⟩ :=
      exists_effect hI (State.points_of_ready hplace) hblock
    exact ⟨w', r', hword, hcounted.effect (State.points_of_ready hplace) heffect⟩
  · rintro s t p' ⟨w, r, hword, hcounted⟩ htimeout
    refine ⟨w, r, hword, hcounted.update rfl ?_ ?_ hcounted.bound (Or.inl le_rfl) ?_⟩
    all_goals
      generalize s.points t = p at htimeout ⊢
      cases p <;> cases htimeout <;> first | rfl | (intro heq; cases heq)

/-! ## Sleepers -/

/-- What a thread that is asleep waits for has not come. -/
def Waits : Gate → Point → BitVec 32 → Prop
  | .gate1, p, state => p.Outside ∧ (state &&& writeEntered ≠ 0 ∨ state &&& nReaders = nReaders)
  | .gate2, p, state => p.Inside ∧ state &&& nReaders ≠ 0

theorem waits_gate1 (hreaders : readers < 2 ^ 31) :
    Waits .gate1 p (word writer readers) ↔ p.Outside ∧ (writer = true ∨ readers + 1 = 2 ^ 31) :=
  and_congr_right fun _ => closed_iff hreaders

theorem waits_gate2 (hreaders : readers < 2 ^ 31) :
    Waits .gate2 p (word writer readers) ↔ p.Inside ∧ readers ≠ 0 := by
  rw [Waits, word_and_nReaders hreaders, word_readers_ne_zero hreaders]

theorem Effect.waits {q : Gate} {p' : Point} {n : Option (Notify Gate)} (hbound : r' < 2 ^ 31)
    (h : Effect p w r w' r' (.wait q p') n) : Waits q p' (word w' r') := by
  cases h with
  | waitGate1 _ hout hclosed => exact (waits_gate1 hbound).mpr ⟨hout, hclosed⟩
  | enter _ hin hr => exact (waits_gate2 hbound).mpr ⟨hin, hr⟩
  | waitGate2 _ hin hr => exact (waits_gate2 hbound).mpr ⟨hin, hr⟩

/-- Those at the first gate are all told when it opens, if it has not been
closed by the number of readers. -/
theorem Effect.keeps_gate1 {p' : Point} {next : Next Gate Point} {n : Option (Notify Gate)}
    (hbound : r < 2 ^ 31) (hbound' : r' < 2 ^ 31) (hfew : r + 1 ≠ 2 ^ 31)
    (h : Effect p w r w' r' next n) (hwaits : Waits .gate1 p' (word w r)) :
    Waits .gate1 p' (word w' r') ∨ n = some (.all .gate1) := by
  obtain ⟨hout, hclosed⟩ := (waits_gate1 hbound).mp hwaits
  have hwriter : w = true := hclosed.resolve_right hfew
  cases h with
  | release => exact Or.inr rfl
  | giveUp => exact Or.inr rfl
  | enter => exact absurd hwriter (by decide)
  | enterAtOnce => exact absurd hwriter (by decide)
  | share => exact absurd hwriter (by decide)
  | unshare => exact Or.inl ((waits_gate1 hbound').mpr ⟨hout, Or.inl hwriter⟩)
  | refuse => exact Or.inl hwaits
  | waitGate1 => exact Or.inl hwaits
  | waitGate2 => exact Or.inl hwaits
  | own => exact Or.inl hwaits

/-- The last reader tells the only thread at the second gate. -/
theorem Effect.keeps_gate2 {next : Next Gate Point} {n : Option (Notify Gate)}
    (hcounted : Counted w r points) (hbound' : r' < 2 ^ 31) (ht : points t = p) (hut : u ≠ t)
    (h : Effect p w r w' r' next n) (hwaits : Waits .gate2 (points u) (word w r)) :
    Waits .gate2 (points u) (word w' r') ∨ n = some (.one .gate2) := by
  obtain ⟨hin, hsome⟩ := (waits_gate2 hcounted.bound).mp hwaits
  have hwriter : w = true := hcounted.writer_of_entered hin.entered
  cases h with
  | enter => exact absurd hwriter (by decide)
  | enterAtOnce => exact absurd hwriter (by decide)
  | share => exact absurd hwriter (by decide)
  | own => exact absurd rfl hsome
  | release =>
    exact absurd (hcounted.entered_unique (show (points t).entered = 1 by rw [ht]; rfl) hin.entered) hut
  | unshare =>
    rw [if_pos hwriter]
    split_ifs with hlast
    · exact Or.inr rfl
    · exact Or.inl ((waits_gate2 hbound').mpr ⟨hin, hlast⟩)
  | giveUp => exact Or.inl ((waits_gate2 hbound').mpr ⟨hin, hsome⟩)
  | refuse => exact Or.inl hwaits
  | waitGate1 => exact Or.inl hwaits
  | waitGate2 => exact Or.inl hwaits

omit [DecidableEq ι] in
theorem Counted.readers_le_card (h : Counted w r points) : r ≤ Fintype.card ι := by
  rw [← h.sharing, total, ← Finset.card_univ, Finset.card_eq_sum_ones]
  exact Finset.sum_le_sum fun t _ => (points t).sharing_le_one

theorem reachable_waits (hcard : Fintype.card ι < 2 ^ 31 - 1) (h : Reachable s) {q : Gate}
    (ht : s.place t = .asleep q p) : Waits q p s.shared := by
  refine Program.reachable_sleepers (fun t q p => ?_) ?_ ?_ h ht
  · intro heq
    cases heq
  · intro s t c p σ' q p' n hreach hplace hblock
    obtain ⟨w, r, w', r', -, -, hbound, hword, heffect⟩ :=
      exists_effect (reachable_accounted hreach) (State.points_of_ready hplace) hblock
    obtain rfl : σ' = word w' r' := hword
    exact heffect.waits hbound
  · intro s t u c p σ' next n q p' hreach hplace hblock hut hu hwaits
    obtain ⟨w, r, w', r', hshared, hcounted, hbound, hword, heffect⟩ :=
      exists_effect (reachable_accounted hreach) (State.points_of_ready hplace) hblock
    obtain rfl : σ' = word w' r' := hword
    rw [hshared] at hwaits ⊢
    cases q with
    | gate1 =>
      have hfew : r + 1 ≠ 2 ^ 31 := by
        have hle := hcounted.readers_le_card
        omega
      rcases heffect.keeps_gate1 hcounted.bound hbound hfew hwaits with hkept | hall
      · exact Or.inl hkept
      · exact Or.inr (Or.inl hall)
    | gate2 =>
      subst hu
      rcases heffect.keeps_gate2 hcounted hbound (State.points_of_ready hplace) hut hwaits with
        hkept | hone
      · exact Or.inl hkept
      · refine Or.inr (Or.inr ⟨hone, fun v hv => ?_⟩)
        exact hcounted.entered_unique hwaits.1.entered hv.1.entered

/-! ## Exclusion, and that nobody is left asleep -/

omit [DecidableEq ι] in
theorem Counted.exists_entered (h : Counted true r points) : ∃ t, (points t).entered = 1 := by
  by_contra hnone
  have hzero : total Point.entered points = 0 := by
    refine total_const_zero _ _ fun t => ?_
    have hne : (points t).entered ≠ 1 := fun hone => hnone ⟨t, hone⟩
    generalize points t = p at hne
    cases p <;> first | rfl | exact absurd rfl hne
  rw [h.entered] at hzero
  exact absurd hzero (by decide)

omit [DecidableEq ι] in
theorem Counted.exists_shares (h : Counted w r points) (hr : r ≠ 0) :
    ∃ t, points t = .shares := by
  by_contra hnone
  have hzero : total Point.sharing points = 0 := by
    refine total_const_zero _ _ fun t => ?_
    have hne : points t ≠ .shares := fun heq => hnone ⟨t, heq⟩
    generalize points t = p at hne
    cases p <;> first | rfl | exact absurd rfl hne
  exact hr (h.sharing.symm.trans hzero)

omit [DecidableEq ι] in
theorem Counted.card_shares (h : Counted w r points) :
    (Finset.univ.filter fun t => points t = .shares).card = r := by
  rw [← h.sharing, Finset.card_filter, total]
  refine Finset.sum_congr rfl fun t _ => ?_
  generalize points t = p
  cases p <;> rfl

/-- A thread that is asleep waits for one that is awake and will go on. -/
theorem exists_ready_of_asleep (hcard : Fintype.card ι < 2 ^ 31 - 1) (h : Reachable s) {q : Gate}
    (ht : s.place t = .asleep q p) : ∃ u p', s.place u = .ready p' ∧ p' ≠ .free := by
  obtain ⟨w, r, hword, hcounted⟩ := reachable_accounted h
  -- A thread that sleeps at the second gate is told by one that shares.
  have hsharer (hr : r ≠ 0) : ∃ u p', s.place u = .ready p' ∧ p' ≠ .free := by
    obtain ⟨u, hu⟩ := hcounted.exists_shares hr
    cases hplace : s.place u with
    | ready p' =>
      rw [State.points_of_ready hplace] at hu
      subst hu
      exact ⟨u, .shares, hplace, by decide⟩
    | asleep q' p' =>
      have hwaits := reachable_waits hcard h hplace
      rw [State.points_of_asleep hplace] at hu
      subst hu
      cases q' with
      | gate1 => exact hwaits.1.elim
      | gate2 => exact hwaits.1.elim
  have hgate2 {u : ι} {p' : Point} (hu : s.place u = .asleep .gate2 p') : r ≠ 0 := by
    have hwaits := reachable_waits hcard h hu
    rw [hword] at hwaits
    exact ((waits_gate2 hcounted.bound).mp hwaits).2
  cases q with
  | gate2 => exact hsharer (hgate2 ht)
  | gate1 =>
    have hwaits := reachable_waits hcard h ht
    rw [hword, waits_gate1 hcounted.bound] at hwaits
    have hfew : r + 1 ≠ 2 ^ 31 := by
      have hle := hcounted.readers_le_card
      omega
    obtain rfl := hwaits.2.resolve_right hfew
    obtain ⟨u, hu⟩ := hcounted.exists_entered
    cases hplace : s.place u with
    | ready p' =>
      refine ⟨u, p', hplace, ?_⟩
      rintro rfl
      rw [State.points_of_ready hplace] at hu
      exact absurd hu (by decide)
    | asleep q' p' =>
      cases q' with
      | gate2 => exact hsharer (hgate2 hplace)
      | gate1 =>
        have hout := (reachable_waits hcard h hplace).1.entered
        rw [State.points_of_asleep hplace, hout] at hu
        exact absurd hu (by decide)

/-- While a writer has entered no thread begins to share. -/
theorem not_shares_of_entered (h : Reachable s) {l : Label ι Call}
    (hstep : (program ι).step s l = some s') (ht : (s.points t).entered = 1)
    (hu : s'.points u = .shares) : s.points u = .shares := by
  have haccounted := reachable_accounted h
  obtain ⟨v, c, woken, p, next, n, -, hplace, hblock, hpoints, -⟩ |
    ⟨-, hpoints | ⟨v, p', -, htimeout, hpoints⟩, -⟩ := Program.step_cases hstep
  · obtain ⟨w, r, w', r', -, hcounted, -, -, heffect⟩ :=
      exists_effect haccounted (State.points_of_ready hplace) hblock
    have hwriter := hcounted.writer_of_entered ht
    rw [hpoints] at hu
    by_cases huv : u = v
    · rw [huv, Function.update_self] at hu
      cases heffect with
      | share => exact absurd hwriter (by decide)
      | waitGate1 _ hout =>
        obtain rfl := hu
        exact hout.elim
      | enter _ hin =>
        obtain rfl := hu
        exact hin.elim
      | waitGate2 _ hin =>
        obtain rfl := hu
        exact hin.elim
      | _ => cases hu
    · rwa [Function.update_of_ne huv] at hu
  · rwa [hpoints] at hu
  · rw [hpoints] at hu
    by_cases huv : u = v
    · rw [huv, Function.update_self] at hu
      subst hu
      generalize s.points v = p at htimeout
      cases p <;> cases htimeout
    · rwa [Function.update_of_ne huv] at hu

/-- Whoever owns the mutex is alone with it; the low bits count those that share
it, and the top bit is set exactly while a writer has entered, of whom there is
one, who owns it or waits for the readers, and lets no other reader in.  With fewer threads than the
word can count, one that is asleep at the first gate waits for a writer, one at
the second has entered and waits for a reader, and some thread that is awake
owns or shares the mutex or is in one of its operations. -/
theorem shared_mutex (hcard : Fintype.card ι < 2 ^ 31 - 1) (h : Reachable s) :
    (∀ t u, s.points t = .owns → s.points u ≠ .shares ∧ (s.points u = .owns → u = t)) ∧
      (s.shared &&& nReaders).toNat =
        (Finset.univ.filter fun t => s.points t = .shares).card ∧
      (s.shared &&& writeEntered ≠ 0 ↔ ∃ t, (s.points t).entered = 1) ∧
      (∀ t u, (s.points t).entered = 1 → (s.points u).entered = 1 → u = t) ∧
      (∀ t l s', (s.points t).entered = 1 → (program ι).step s l = some s' →
        ∀ u, s'.points u = .shares → s.points u = .shares) ∧
      (∀ t p, s.place t = .asleep .gate1 p → ∃ u, (s.points u).entered = 1) ∧
      (∀ t p, s.place t = .asleep .gate2 p →
        (s.points t).entered = 1 ∧ ∃ u, s.points u = .shares) ∧
      ∀ t q p, s.place t = .asleep q p → ∃ u p', s.place u = .ready p' ∧ p' ≠ .free := by
  obtain ⟨w, r, hword, hcounted⟩ := reachable_accounted h
  refine ⟨fun t u ht => ⟨fun hu => ?_, fun hu => ?_⟩, ?_, ?_,
    fun t u ht hu => hcounted.entered_unique ht hu, fun t l s' ht hstep u hu => ?_,
    fun t p ht => ?_, fun t p ht => ?_, fun t q p ht => exists_ready_of_asleep hcard h ht⟩
  · exact hcounted.readers_ne_zero hu (hcounted.owner t ht)
  · exact hcounted.entered_unique (show (s.points t).entered = 1 by rw [ht]; rfl)
      (show (s.points u).entered = 1 by rw [hu]; rfl)
  · rw [hword, word_and_nReaders hcounted.bound, toNat_word_false hcounted.bound,
      hcounted.card_shares]
  · rw [hword, word_and_writeEntered hcounted.bound, word_writer_ne_zero]
    constructor
    · rintro rfl
      exact hcounted.exists_entered
    · rintro ⟨t, ht⟩
      exact hcounted.writer_of_entered ht
  · exact not_shares_of_entered h hstep ht hu
  · have hwaits := reachable_waits hcard h ht
    have hfew : r + 1 ≠ 2 ^ 31 := by
      have hle := hcounted.readers_le_card
      omega
    rw [hword, waits_gate1 hcounted.bound] at hwaits
    obtain rfl := hwaits.2.resolve_right hfew
    exact hcounted.exists_entered
  · have hwaits := reachable_waits hcard h ht
    rw [hword, waits_gate2 hcounted.bound] at hwaits
    refine ⟨?_, hcounted.exists_shares hwaits.2⟩
    rw [State.points_of_asleep ht, hwaits.1.entered]

/-- A writer waits for the reader that came first, and the next reader for the
writer. -/
theorem shared_mutex_three :
    ∃ s : Monitor.State (Fin 3) (BitVec 32) Gate Point,
      s.place 1 = .asleep .gate2 .lockReaders ∧ s.place 2 = .asleep .gate1 .lockShared ∧
        (s.shared &&& nReaders).toNat =
          (Finset.univ.filter fun t => s.points t = .shares).card ∧
        ∃ u p, s.place u = .ready p ∧ p ≠ .free := by
  have hexec : ∃ s, ((program (Fin 3)).system (start (Fin 3))).exec (fun _ _ => True)
      (start (Fin 3)) [.run 0 .lockShared 0, .run 1 .lock 0, .run 2 .lockShared 0] = some s ∧
      s.place 1 = .asleep .gate2 .lockReaders ∧ s.place 2 = .asleep .gate1 .lockShared :=
    ⟨_, rfl, by decide, by decide⟩
  obtain ⟨s, hs, hwriter, hreader⟩ := hexec
  have hall := shared_mutex (by decide) (System.reachable_of_exec rfl hs)
  exact ⟨s, hwriter, hreader, hall.2.1, hall.2.2.2.2.2.2.2 2 .gate1 .lockShared hreader⟩

end Libhipcxx.Mutex.Shared
