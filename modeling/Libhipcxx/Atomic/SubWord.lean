import Libhipcxx.Atomic.DeviceCompareExchange
import Libhipcxx.Support.Lanes
import Libhipcxx.Support.MachineInt
import Mathlib.Tactic.ByContra

/-!
# Objects of one and two bytes on the device

An object of one or two bytes is a lane of the aligned word that contains it,
and its compare-exchange is a loop around the compare-exchange of that word.
`*__expected` and `*__desired` are promoted to `int` before they are shifted
into the lane: a negative value brings its sign bits along, which the comparison
then misses in the lane, and which end up in the lanes above.

What happens to the word between two steps of the loop is arbitrary: a run is
given by what each compare-exchange of the word finds there.
-/

namespace Libhipcxx.Atomic.SubWord

open Device Lanes MachineInt

abbrev Word := BitVec 32

/-- An integer type with `sizeof(_Type) <= 2`. -/
structure LaneType where
  bytes : ℕ
  isSigned : Bool
  bytes_pos : 0 < bytes := by decide
  bytes_le : bytes ≤ 2 := by decide

def int8 : LaneType where
  bytes := 1
  isSigned := true
  bytes_pos := Nat.one_pos

def uint16 : LaneType where
  bytes := 2
  isSigned := false

abbrev LaneType.bits (T : LaneType) : ℕ := 8 * T.bytes

/-- The integer promotion, as bits. -/
def LaneType.promote (T : LaneType) (v : BitVec T.bits) : Word :=
  if T.isSigned then v.signExtend 32 else v.setWidth 32

/-- The address of an object, which has the alignment of its type. -/
structure Pointer (T : LaneType) where
  address : BitVec 64
  aligned : T.bytes ∣ address.toNat

variable {T : LaneType}

/-- `__offset`, the position of the lane. -/
def Pointer.offset (p : Pointer T) : ℕ :=
  ((p.address &&& (4 - 1)).setWidth 32 * 8 : Word).toNat

/-- `__mask`. -/
def Pointer.mask (p : Pointer T) : Word := (((1 : Word) <<< T.bits) - 1) <<< p.offset

/-- What the aligned word holds at a compare-exchange of it, and whether that
fails spuriously. -/
structure Moment where
  word : Word
  spurious : Bool

/-- How a call ends: its result, `*__expected`, the word before and after each
compare-exchange of it, and what the run still has in store. -/
structure Result (T : LaneType) where
  returned : Bool
  expected : BitVec T.bits
  accesses : List (Word × Word)
  rest : List Moment

/-- The result after one more access at the beginning. -/
def Result.after (access : Word × Word) (r : Result T) : Result T :=
  { r with accesses := access :: r.accesses }

@[simp] theorem Result.after_returned (access : Word × Word) (r : Result T) :
    (r.after access).returned = r.returned := rfl

@[simp] theorem Result.after_expected (access : Word × Word) (r : Result T) :
    (r.after access).expected = r.expected := rfl

@[simp] theorem Result.after_rest (access : Word × Word) (r : Result T) :
    (r.after access).rest = r.rest := rfl

/-- The `while (1)` of `__atomic_compare_exchange_cuda`; none if the run ends
before the call does. -/
def compareExchangeLoop (tag : ScopeTag) (p : Pointer T)
    (expected desired : BitVec T.bits) (old : Word) (moments : List Moment) :
    Option (Result T) :=
  let oldValue := (old &&& p.mask) >>> p.offset
  if oldValue ≠ T.promote expected then
    some ⟨false, oldValue.setWidth T.bits, [], moments⟩
  else
    match moments with
    | [] => none
    | m :: rest =>
        let attempt := (old &&& ~~~p.mask) ||| (T.promote desired <<< p.offset)
        let (exchanged, old', word') :=
          atomicCompareExchangeCuda tag .four true m.spurious old attempt m.word
        if exchanged then some ⟨true, expected, [(m.word, word')], rest⟩
        else
          (compareExchangeLoop tag p expected desired old' rest).map
            (Result.after (m.word, word'))

/-- `__atomic_compare_exchange_cuda` of one and two bytes. -/
def compareExchange (tag : ScopeTag) (p : Pointer T)
    (expected desired : BitVec T.bits) (moments : List Moment) :
    Option (Result T) :=
  compareExchangeLoop tag p expected desired (T.promote expected <<< p.offset)
    moments

/-- The loop of the functions that are built on it; `desired` is what they store
over an expected value.  One unit of fuel is one compare-exchange of the lane. -/
def updateLoop (tag : ScopeTag) (p : Pointer T)
    (desired : BitVec T.bits → BitVec T.bits) :
    ℕ → BitVec T.bits → List Moment → Option (Result T)
  | 0, _, _ => none
  | fuel + 1, expected, moments =>
      (compareExchange tag p expected (desired expected) moments).bind fun r =>
        if r.returned then some r
        else updateLoop tag p desired fuel r.expected r.rest

/-- `__atomic_exchange_cuda`, from the value that its load has read. -/
def exchange (tag : ScopeTag) (p : Pointer T) (val : BitVec T.bits) :
    ℕ → BitVec T.bits → List Moment → Option (Result T) :=
  updateLoop tag p fun _ => val

/-- `__atomic_fetch_add_cuda`, from the value that its load has read. -/
def fetchAdd (tag : ScopeTag) (p : Pointer T) (val : BitVec T.bits) :
    ℕ → BitVec T.bits → List Moment → Option (Result T) :=
  updateLoop tag p fun expected =>
    (T.promote expected + T.promote val).setWidth T.bits

/-! ## The lane of a pointer -/

theorem Pointer.offset_eq (p : Pointer T) :
    p.offset = 8 * (p.address.toNat % 4) := by
  have hand : (p.address &&& (4 - 1)).toNat = p.address.toNat % 4 := by
    rw [BitVec.toNat_and]
    exact Nat.and_two_pow_sub_one_eq_mod p.address.toNat 2
  have hlt : p.address.toNat % 4 < 4 := Nat.mod_lt _ (by decide)
  have height : (8 : Word).toNat = 8 := rfl
  rw [offset, BitVec.toNat_mul, BitVec.toNat_setWidth, hand, height]
  omega

/-- The lane lies inside the word. -/
theorem Pointer.offset_add_bits_le (p : Pointer T) : p.offset + T.bits ≤ 32 := by
  obtain ⟨k, hk⟩ := p.aligned
  have hpos := T.bytes_pos
  have hle := T.bytes_le
  have hbytes : T.bytes = 1 ∨ T.bytes = 2 := by omega
  rw [p.offset_eq, LaneType.bits]
  rcases hbytes with h | h
  · omega
  · rw [h] at hk
    omega

/-- The value of the object when the aligned word is `w`. -/
def Pointer.value (p : Pointer T) (w : Word) : BitVec T.bits := lane p.offset T.bits w

theorem Pointer.mask_eq (p : Pointer T) : p.mask = laneMask 32 p.offset T.bits := by
  have hle := T.bytes_le
  rw [mask, laneMask, one_shiftLeft_sub_one (by rw [LaneType.bits]; omega)]

theorem Pointer.read_eq (p : Pointer T) (w : Word) :
    (w &&& p.mask) >>> p.offset = (p.value w).setWidth 32 := by
  rw [p.mask_eq]
  exact and_laneMask_shiftRight p.offset_add_bits_le w

theorem LaneType.bits_le (T : LaneType) : T.bits ≤ 16 := by
  have hle := T.bytes_le
  rw [LaneType.bits]
  omega

theorem setWidth_setWidth (v : BitVec T.bits) :
    (v.setWidth 32).setWidth T.bits = v := by
  have hle := T.bits_le
  rw [BitVec.setWidth_setWidth_of_le _ (by omega), BitVec.setWidth_eq]

theorem setWidth_promote (v : BitVec T.bits) : (T.promote v).setWidth T.bits = v := by
  have hle := T.bits_le
  rw [LaneType.promote]
  split
  · exact setWidth_signExtend (by omega) v
  · exact setWidth_setWidth v

/-- The promotion adds no sign bits. -/
def ZeroExtended (v : BitVec T.bits) : Prop := T.isSigned = false ∨ 0 ≤ v.toInt

instance (v : BitVec T.bits) : Decidable (ZeroExtended v) :=
  inferInstanceAs (Decidable (_ ∨ _))

theorem promote_eq_iff (v : BitVec T.bits) :
    v.setWidth 32 = T.promote v ↔ ZeroExtended v := by
  have hle := T.bits_le
  rw [LaneType.promote, ZeroExtended]
  split
  · rename_i hsigned
    rw [setWidth_eq_signExtend_iff (by omega), hsigned]
    simp
  · rename_i hunsigned
    simp [hunsigned]

/-- The test of the loop: the expected value brings no sign bits, and is the
value of the object. -/
theorem read_eq_promote_iff (p : Pointer T) (expected : BitVec T.bits) (w : Word) :
    (w &&& p.mask) >>> p.offset = T.promote expected ↔
      ZeroExtended expected ∧ p.value w = expected := by
  rw [p.read_eq, ← promote_eq_iff]
  constructor
  · intro h
    have hvalue : p.value w = expected := by
      have htrunc := congrArg (BitVec.setWidth T.bits) h
      rwa [setWidth_setWidth, setWidth_promote] at htrunc
    rw [hvalue] at h
    exact ⟨h, hvalue⟩
  · rintro ⟨hzero, rfl⟩
    exact hzero

/-- The word that the first test looks at. -/
theorem value_start (p : Pointer T) (expected : BitVec T.bits) :
    p.value (T.promote expected <<< p.offset) = expected := by
  rw [Pointer.value, lane_shiftLeft p.offset_add_bits_le, setWidth_promote]

/-! ## One round of the loop -/

variable {tag : ScopeTag} {p : Pointer T} {expected desired : BitVec T.bits}
  {old : Word} {m : Moment} {rest moments : List Moment} {r : Result T}

/-- The word with which the loop tries to replace `old`. -/
def Pointer.attempt (p : Pointer T) (desired : BitVec T.bits) (old : Word) : Word :=
  (old &&& ~~~p.mask) ||| (T.promote desired <<< p.offset)

theorem loop_mismatch (h : ¬(ZeroExtended expected ∧ p.value old = expected)) :
    compareExchangeLoop tag p expected desired old moments =
      some ⟨false, p.value old, [], moments⟩ := by
  have htest : (p.value old).setWidth 32 ≠ T.promote expected := by
    rw [← p.read_eq]
    exact mt (read_eq_promote_iff p expected old).mp h
  rw [compareExchangeLoop.eq_def]
  simp only [p.read_eq, setWidth_setWidth, htest, ne_eq, not_false_eq_true,
    ↓reduceIte]

theorem loop_nil (hzero : ZeroExtended expected) (h : p.value old = expected) :
    compareExchangeLoop tag p expected desired old [] = none := by
  have htest := (read_eq_promote_iff p expected old).mpr ⟨hzero, h⟩
  rw [compareExchangeLoop.eq_def]
  simp only [htest, ne_eq, not_true_eq_false, ↓reduceIte]

/-- The word is exchanged by a weak compare-exchange at every scope. -/
theorem cuda_weak (tag : ScopeTag) (spurious : Bool) (expected desired w : Word) :
    atomicCompareExchangeCuda tag .four true spurious expected desired w =
      hipAtomicCompareExchangeWeak spurious expected desired w := by
  cases tag with
  | block => rfl
  | device => rfl
  | system => rfl

theorem loop_exchanged (hzero : ZeroExtended expected) (h : p.value old = expected)
    (hword : m.word = old) (hspurious : m.spurious = false) :
    compareExchangeLoop tag p expected desired old (m :: rest) =
      some ⟨true, expected, [(old, p.attempt desired old)], rest⟩ := by
  have htest := (read_eq_promote_iff p expected old).mpr ⟨hzero, h⟩
  have hstep : hipAtomicCompareExchangeWeak m.spurious old (p.attempt desired old)
      m.word = (true, old, p.attempt desired old) := by
    rw [hipAtomicCompareExchangeWeak, hspurious, hword,
      hipAtomicCompareExchangeStrong]
    simp
  rw [Pointer.attempt] at hstep ⊢
  rw [compareExchangeLoop.eq_def]
  simp only [htest, ne_eq, not_true_eq_false, ↓reduceIte, cuda_weak, hstep]
  rw [hword]

theorem loop_retry (hzero : ZeroExtended expected) (h : p.value old = expected)
    (hfail : m.spurious = true ∨ m.word ≠ old) :
    compareExchangeLoop tag p expected desired old (m :: rest) =
      (compareExchangeLoop tag p expected desired m.word rest).map
        (Result.after (m.word, m.word)) := by
  have htest := (read_eq_promote_iff p expected old).mpr ⟨hzero, h⟩
  have hstep : hipAtomicCompareExchangeWeak m.spurious old (p.attempt desired old)
      m.word = (false, m.word, m.word) := by
    rw [hipAtomicCompareExchangeWeak, hipAtomicCompareExchangeStrong]
    rcases hfail with hspurious | hword
    · rw [if_pos hspurious]
    · rw [if_neg hword, ite_self]
  rw [Pointer.attempt] at hstep
  rw [compareExchangeLoop.eq_def]
  simp only [htest, ne_eq, not_true_eq_false, ↓reduceIte, cuda_weak, hstep,
    Bool.false_eq_true]

/-- A round exchanges the word, or goes on with the word it found. -/
theorem loop_cons (hzero : ZeroExtended expected) (h : p.value old = expected)
    (m : Moment) (rest : List Moment) :
    (m.word = old ∧ compareExchangeLoop tag p expected desired old (m :: rest) =
      some ⟨true, expected, [(old, p.attempt desired old)], rest⟩) ∨
    compareExchangeLoop tag p expected desired old (m :: rest) =
      (compareExchangeLoop tag p expected desired m.word rest).map
        (Result.after (m.word, m.word)) := by
  by_cases hfail : m.spurious = true ∨ m.word ≠ old
  · exact Or.inr (loop_retry hzero h hfail)
  · rw [not_or, not_not, Bool.not_eq_true] at hfail
    exact Or.inl ⟨hfail.2, loop_exchanged hzero h hfail.2 hfail.1⟩

/-! ## What a result says -/

/-- The lane has the new value, and every other bit is as it was. -/
def Replaces (p : Pointer T) (desired : BitVec T.bits) (before after : Word) : Prop :=
  p.value after = desired ∧
    ∀ i < 32, ¬InLane p.offset T.bits i → after.getLsbD i = before.getLsbD i

/-- The last access to the word decides: the call succeeds if and only if the
object has the expected value there, and then replaces it; a failure leaves the
word and stores the value of the object into `*__expected`. -/
def Right (p : Pointer T) (expected desired : BitVec T.bits) (r : Result T) : Prop :=
  ∃ earlier before after, r.accesses = earlier ++ [(before, after)] ∧
    (∀ access ∈ earlier, access.2 = access.1) ∧
    (r.returned = true ↔ p.value before = expected) ∧
    (r.returned = true → Replaces p desired before after) ∧
    (r.returned = false → after = before ∧ r.expected = p.value before)

theorem Right.after (h : Right p expected desired r) (w : Word) :
    Right p expected desired (r.after (w, w)) := by
  obtain ⟨earlier, before, last, haccesses, hsame, hreturned⟩ := h
  refine ⟨(w, w) :: earlier, before, last, ?_, ?_, hreturned⟩
  · rw [Result.after, haccesses, List.cons_append]
  · intro access haccess
    rcases List.mem_cons.mp haccess with rfl | hmem
    · rfl
    · exact hsame access hmem

/-- The sign bits of the new value do not reach a lane above: there are none, or
there is no such lane. -/
def StaysInLane (p : Pointer T) (desired : BitVec T.bits) : Prop :=
  ZeroExtended desired ∨ p.offset + T.bits = 32

theorem attempt_eq (h : StaysInLane p desired) (old : Word) :
    p.attempt desired old = setLane p.offset desired old := by
  have hshift : T.promote desired <<< p.offset =
      desired.setWidth 32 <<< p.offset := by
    rcases h with hzero | htop
    · rw [(promote_eq_iff desired).mpr hzero]
    · have hbits := T.bits_le
      apply BitVec.eq_of_getLsbD_eq
      intro i hi
      rw [BitVec.getLsbD_shiftLeft, BitVec.getLsbD_shiftLeft]
      by_cases hlow : i < p.offset
      · simp [hlow]
      · have hbit : (T.promote desired).getLsbD (i - p.offset) =
            ((T.promote desired).setWidth T.bits).getLsbD (i - p.offset) := by
          have hlt : i - p.offset < T.bits := by omega
          rw [BitVec.getLsbD_setWidth]
          simp [hlt]
        have hsub : i - p.offset < 32 := by omega
        rw [hbit, setWidth_promote, BitVec.getLsbD_setWidth]
        simp [hsub]
  rw [Pointer.attempt, setLane, p.mask_eq, hshift]

theorem replaces_attempt (h : StaysInLane p desired) (old : Word) :
    Replaces p desired old (p.attempt desired old) := by
  rw [attempt_eq h]
  refine ⟨lane_setLane p.offset_add_bits_le desired old, ?_⟩
  intro i hi hout
  rw [getLsbD_setLane _ _ _ hi, if_neg hout]

/-- The loop is right where no sign bits are in the way. -/
theorem loop_right (hzero : ZeroExtended expected) (hstays : StaysInLane p desired)
    (h : p.value old = expected)
    (hrun : compareExchangeLoop tag p expected desired old moments = some r) :
    Right p expected desired r := by
  induction moments generalizing old r with
  | nil =>
      rw [loop_nil hzero h] at hrun
      cases hrun
  | cons m rest ih =>
      rcases @loop_cons _ tag _ _ desired _ hzero h m rest with ⟨-, hdone⟩ | hretry
      · obtain rfl := Option.some.inj (hdone.symm.trans hrun)
        exact ⟨[], old, _, rfl, by simp, by simp [h],
          fun _ => replaces_attempt hstays old, by simp⟩
      · rw [hretry] at hrun
        obtain ⟨r', hr', rfl⟩ := Option.map_eq_some_iff.mp hrun
        by_cases hvalue : p.value m.word = expected
        · exact (ih hvalue hr').after m.word
        · rw [loop_mismatch fun hboth => hvalue hboth.2] at hr'
          obtain rfl := Option.some.inj hr'
          exact ⟨[], m.word, m.word, rfl, by simp, by simp [hvalue], by simp,
            fun _ => ⟨rfl, rfl⟩⟩

/-- A negative expected value: the call fails without a look at the word. -/
theorem compareExchange_signed (h : ¬ZeroExtended expected) (moments : List Moment) :
    compareExchange tag p expected desired moments =
      some ⟨false, expected, [], moments⟩ := by
  rw [compareExchange, loop_mismatch fun hboth => h hboth.1, value_start]

/-- A sign bit of the new value is found above the lane. -/
theorem getLsbD_promote (h : ¬ZeroExtended desired) :
    (T.promote desired).getLsbD T.bits = true := by
  have hbits := T.bits_le
  obtain ⟨hsigned, hneg⟩ := not_or.mp h
  have hmsb : desired.msb = true := by
    rw [BitVec.msb_eq_toInt]
    simpa using hneg
  rw [Bool.not_eq_false] at hsigned
  rw [LaneType.promote, if_pos hsigned, BitVec.getLsbD_signExtend]
  have hlt : T.bits < 32 := by omega
  simp [hlt, hmsb]

/-- Without a lane above, or without sign bits, nothing spills; else the bit
above the lane is overwritten. -/
theorem not_right_of_spill (hzero : ZeroExtended expected)
    (h : ¬StaysInLane p desired) :
    ∃ moments r, compareExchange tag p expected desired moments = some r ∧
      ¬Right p expected desired r := by
  obtain ⟨hdesired, htop⟩ := not_or.mp h
  have hle := p.offset_add_bits_le
  have hlow : ¬ p.offset + T.bits < p.offset := by omega
  have hbit : p.offset + T.bits < 32 := by omega
  have hout : ¬InLane p.offset T.bits (p.offset + T.bits) := fun hin =>
    absurd hin.2 (Nat.lt_irrefl _)
  have hsub : p.offset + T.bits - p.offset = T.bits := by omega
  refine ⟨[⟨T.promote expected <<< p.offset, false⟩], _,
    loop_exchanged hzero (value_start p expected) rfl rfl, ?_⟩
  rintro ⟨earlier, before, after, haccesses, -, -, hreplaces, -⟩
  obtain ⟨-, hpair⟩ := List.append_inj' ((List.nil_append _).trans haccesses) rfl
  obtain ⟨rfl, rfl⟩ := Prod.mk.inj (List.cons.inj hpair).1
  have hsame := (hreplaces rfl).2 (p.offset + T.bits) hbit hout
  have hbefore : (T.promote expected <<< p.offset).getLsbD (p.offset + T.bits) =
      false := by
    rw [BitVec.getLsbD_shiftLeft, hsub, ← (promote_eq_iff expected).mpr hzero,
      BitVec.getLsbD_setWidth, BitVec.getLsbD_of_ge expected _ (Nat.le_refl _)]
    simp
  have hafter : (T.promote desired <<< p.offset).getLsbD (p.offset + T.bits) =
      true := by
    rw [BitVec.getLsbD_shiftLeft, hsub, getLsbD_promote hdesired]
    simp [hbit]
  rw [hbefore, Pointer.attempt, BitVec.getLsbD_or, hafter, Bool.or_true] at hsame
  cases hsame

/-- A call that does not look at the word cannot be right. -/
theorem not_right_of_signed (h : ¬ZeroExtended expected) :
    ∃ moments r, compareExchange tag p expected desired moments = some r ∧
      ¬Right p expected desired r := by
  refine ⟨[], _, compareExchange_signed h [], ?_⟩
  rintro ⟨earlier, before, after, haccesses, -⟩
  simp at haccesses

theorem compareExchange_right_iff (tag : ScopeTag) (p : Pointer T)
    (expected desired : BitVec T.bits) :
    (∀ moments r, compareExchange tag p expected desired moments = some r →
      Right p expected desired r) ↔
    ZeroExtended expected ∧ StaysInLane p desired := by
  constructor
  · intro hright
    by_contra hnot
    obtain ⟨moments, r, hrun, hwrong⟩ :
        ∃ moments r, compareExchange tag p expected desired moments = some r ∧
          ¬Right p expected desired r := by
      by_cases hzero : ZeroExtended expected
      · exact not_right_of_spill hzero fun hstays => hnot ⟨hzero, hstays⟩
      · exact not_right_of_signed hzero
    exact hwrong (hright moments r hrun)
  · rintro ⟨hzero, hstays⟩ moments r hrun
    exact loop_right hzero hstays (value_start p expected) hrun

/-! ## When interference stops -/

/-- From some point of the run on, the word stays as it is until the call ends. -/
def Terminates (run : ℕ → BitVec T.bits → List Moment → Option (Result T))
    (loaded : BitVec T.bits) (interference : List Moment) (w : Word) : Prop :=
  ∃ fuel k r,
    run fuel loaded (interference ++ List.replicate k ⟨w, false⟩) = some r

variable {w : Word} {interference : List Moment}

/-- How a call on the lane ends when interference stops before or during it: it
succeeds, or fails with the lasting value, or fails before interference stops. -/
inductive Outcome (p : Pointer T) (w : Word) (interference : List Moment)
    (r : Result T) : Prop
  | succeeded (h : r.returned = true)
  | steady (hreturned : r.returned = false) (hexpected : r.expected = p.value w)
      (hrest : r.rest = List.replicate 2 ⟨w, false⟩)
  | again (later : List Moment) (hreturned : r.returned = false)
      (hzero : ZeroExtended r.expected)
      (hsuffix : later <:+ interference) (hlt : later.length < interference.length)
      (hrest : r.rest = later ++ List.replicate 3 ⟨w, false⟩)

theorem Outcome.after {r : Result T} (h : Outcome p w interference r)
    (m : Moment) (access : Word × Word) :
    Outcome p w (m :: interference) (r.after access) := by
  cases h with
  | succeeded h => exact Outcome.succeeded h
  | steady hreturned hexpected hrest => exact Outcome.steady hreturned hexpected hrest
  | again later hreturned hzero hsuffix hlt hrest =>
      exact Outcome.again later hreturned hzero
        (hsuffix.trans (List.suffix_cons m interference))
        (Nat.lt_succ_of_lt hlt) hrest

/-- On a word that has the expected value and stays, two rounds succeed. -/
theorem loop_steady (hzero : ZeroExtended expected) (h : p.value old = expected)
    (hw : p.value w = expected) (rest : List Moment) :
    ∃ r, compareExchangeLoop tag p expected desired old
      (⟨w, false⟩ :: ⟨w, false⟩ :: rest) = some r ∧ r.returned = true := by
  rcases @loop_cons _ tag _ _ desired _ hzero h ⟨w, false⟩ (⟨w, false⟩ :: rest) with
    ⟨-, hdone⟩ | hretry
  · exact ⟨_, hdone, rfl⟩
  · rw [hretry, loop_exchanged hzero hw rfl rfl]
    exact ⟨_, rfl, rfl⟩

/-- On a word that has another value and stays, the call fails with it. -/
theorem loop_steady_ne (hzero : ZeroExtended expected) (h : p.value old = expected)
    (hw : p.value w ≠ expected) (rest : List Moment) :
    ∃ r, compareExchangeLoop tag p expected desired old (⟨w, false⟩ :: rest) =
      some r ∧ r.returned = false ∧ r.expected = p.value w ∧ r.rest = rest := by
  have hne : w ≠ old := fun heq => hw (heq ▸ h)
  rw [loop_retry hzero h (Or.inr hne), loop_mismatch fun hboth => hw hboth.2]
  exact ⟨_, rfl, rfl, rfl, rfl⟩

theorem loop_outcome (hzero : ZeroExtended expected)
    (hall : ∀ m ∈ interference, ZeroExtended (p.value m.word))
    (h : p.value old = expected) :
    ∃ r, compareExchangeLoop tag p expected desired old
        (interference ++ List.replicate 3 ⟨w, false⟩) = some r ∧
      Outcome p w interference r := by
  induction interference generalizing old with
  | nil =>
      by_cases hw : p.value w = expected
      · obtain ⟨r, hr, hreturned⟩ :=
          @loop_steady _ tag _ _ desired _ _ hzero h hw [⟨w, false⟩]
        exact ⟨r, hr, Outcome.succeeded hreturned⟩
      · obtain ⟨r, hr, hreturned, hexpected, hrest⟩ :=
          @loop_steady_ne _ tag _ _ desired _ _ hzero h hw
            [⟨w, false⟩, ⟨w, false⟩]
        exact ⟨r, hr, Outcome.steady hreturned hexpected hrest⟩
  | cons m later ih =>
      rcases @loop_cons _ tag _ _ desired _ hzero h m
        (later ++ List.replicate 3 ⟨w, false⟩) with ⟨-, hdone⟩ | hretry
      · exact ⟨_, hdone, Outcome.succeeded rfl⟩
      · rw [List.cons_append, hretry]
        by_cases hvalue : p.value m.word = expected
        · obtain ⟨r, hr, houtcome⟩ :=
            ih (fun m' hm' => hall m' (List.mem_cons_of_mem m hm')) hvalue
          rw [hr]
          exact ⟨_, rfl, houtcome.after m _⟩
        · rw [loop_mismatch fun hboth => hvalue hboth.2]
          exact ⟨_, rfl, Outcome.again later rfl
            (hall m List.mem_cons_self) (List.suffix_cons m later)
            (Nat.lt_succ_self _) rfl⟩

variable {next : BitVec T.bits → BitVec T.bits} {loaded : BitVec T.bits}

/-- While no negative value is met, the loops end. -/
theorem updateLoop_terminates (hloaded : ZeroExtended loaded)
    (hall : ∀ m ∈ interference, ZeroExtended (p.value m.word))
    (hw : ZeroExtended (p.value w)) :
    Terminates (updateLoop tag p next) loaded interference w := by
  suffices h : ∀ n (interference : List Moment) (loaded : BitVec T.bits),
      interference.length < n → ZeroExtended loaded →
      (∀ m ∈ interference, ZeroExtended (p.value m.word)) →
      ∃ fuel r, updateLoop tag p next fuel loaded
        (interference ++ List.replicate 3 ⟨w, false⟩) = some r by
    obtain ⟨fuel, r, hr⟩ := h _ interference loaded (Nat.lt_succ_self _) hloaded hall
    exact ⟨fuel, 3, r, hr⟩
  intro n
  induction n with
  | zero => exact fun _ _ hlt => absurd hlt (Nat.not_lt_zero _)
  | succ n ih =>
      intro interference loaded hlt hloaded hall
      obtain ⟨r, hr, houtcome⟩ :=
        @loop_outcome _ tag _ _ (next loaded) _ w _ hloaded hall
          (value_start p loaded)
      cases houtcome with
      | succeeded h =>
          refine ⟨1, r, ?_⟩
          rw [updateLoop, compareExchange, hr, Option.bind_some, if_pos h]
      | steady hreturned hexpected hrest =>
          obtain ⟨r', hr', hreturned'⟩ :=
            @loop_steady _ tag _ _ (next (p.value w)) _ _ hw
              (value_start p (p.value w)) rfl []
          refine ⟨2, r', ?_⟩
          rw [updateLoop, compareExchange, hr, Option.bind_some, hreturned,
            if_neg Bool.false_ne_true, hexpected, hrest, updateLoop,
            compareExchange]
          change (compareExchangeLoop _ _ _ _ _ [⟨w, false⟩, ⟨w, false⟩]).bind _ = _
          rw [hr', Option.bind_some, if_pos hreturned']
      | again later hreturned hzero hsuffix hlater hrest =>
          obtain ⟨fuel, r', hr'⟩ := ih later r.expected (by omega) hzero
            fun m hm => hall m (hsuffix.subset hm)
          refine ⟨fuel + 1, r', ?_⟩
          rw [updateLoop, compareExchange, hr, Option.bind_some, hreturned,
            if_neg Bool.false_ne_true, hrest, hr']

/-- Once a negative value is expected, the loops never end. -/
theorem updateLoop_signed (h : ¬ZeroExtended loaded) (fuel : ℕ)
    (moments : List Moment) : updateLoop tag p next fuel loaded moments = none := by
  induction fuel with
  | zero => rfl
  | succ fuel ih =>
      rw [updateLoop, compareExchange_signed h, Option.bind_some,
        if_neg Bool.false_ne_true]
      exact ih

/-- Nor do they on a negative value that stays. -/
theorem updateLoop_steady_signed (hloaded : ZeroExtended loaded)
    (h : ¬ZeroExtended (p.value w)) (fuel k : ℕ) :
    updateLoop tag p next fuel loaded (List.replicate k ⟨w, false⟩) = none := by
  have hne : p.value w ≠ loaded := fun heq => h (heq ▸ hloaded)
  cases fuel with
  | zero => rfl
  | succ fuel =>
      rw [updateLoop, compareExchange]
      cases k with
      | zero =>
          rw [List.replicate_zero, loop_nil hloaded (value_start p loaded)]
          rfl
      | succ k =>
          obtain ⟨r, hr, hreturned, hexpected, -⟩ :=
            @loop_steady_ne _ tag _ _ (next loaded) _ _ hloaded
              (value_start p loaded) hne (List.replicate k ⟨w, false⟩)
          rw [List.replicate_succ, hr, Option.bind_some, hreturned,
            if_neg Bool.false_ne_true, hexpected]
          exact updateLoop_signed h fuel r.rest

/-- With a lasting word from the beginning, the loops end if and only if neither
the loaded value nor the value of the word is negative. -/
theorem updateLoop_terminates_iff (tag : ScopeTag) (p : Pointer T)
    (next : BitVec T.bits → BitVec T.bits) (loaded : BitVec T.bits) (w : Word) :
    Terminates (updateLoop tag p next) loaded [] w ↔
      ZeroExtended loaded ∧ ZeroExtended (p.value w) := by
  constructor
  · rintro ⟨fuel, k, r, hr⟩
    rw [List.nil_append] at hr
    by_contra hnot
    by_cases hloaded : ZeroExtended loaded
    · rw [updateLoop_steady_signed hloaded fun hw => hnot ⟨hloaded, hw⟩] at hr
      cases hr
    · rw [updateLoop_signed hloaded] at hr
      cases hr
  · rintro ⟨hloaded, hw⟩
    exact updateLoop_terminates hloaded (by simp) hw

/-- The emulation is right on every run if and only if the expected value brings
no sign bits and those of the desired value stay in the lane; the loops built on
it end if and only if they meet no negative value. -/
theorem subWord_compareExchange_iff (tag : ScopeTag) (p : Pointer T) :
    (∀ expected desired,
      (∀ moments r, compareExchange tag p expected desired moments = some r →
        Right p expected desired r) ↔
      ZeroExtended expected ∧ (ZeroExtended desired ∨ p.offset + T.bits = 32)) ∧
    (∀ val loaded w,
      (Terminates (exchange tag p val) loaded [] w ↔
        ZeroExtended loaded ∧ ZeroExtended (p.value w)) ∧
      (Terminates (fetchAdd tag p val) loaded [] w ↔
        ZeroExtended loaded ∧ ZeroExtended (p.value w))) ∧
    (∀ val loaded interference w, ZeroExtended loaded →
      (∀ m ∈ interference, ZeroExtended (p.value m.word)) →
      ZeroExtended (p.value w) →
      Terminates (exchange tag p val) loaded interference w ∧
      Terminates (fetchAdd tag p val) loaded interference w) := by
  refine ⟨compareExchange_right_iff tag p, ?_, ?_⟩
  · intro val loaded w
    exact ⟨updateLoop_terminates_iff tag p _ loaded w,
      updateLoop_terminates_iff tag p _ loaded w⟩
  · intro val loaded interference w hloaded hall hw
    exact ⟨updateLoop_terminates hloaded hall hw,
      updateLoop_terminates hloaded hall hw⟩

/-- The upper halfword, unsigned: the call is right, and adding ends after any
interference. -/
theorem subWord_compareExchange_iff_uint16 :
    let p : Pointer uint16 := ⟨2, by decide⟩
    (∀ moments r, compareExchange .device p 0xFFFF 0xABCD moments = some r →
      Right p 0xFFFF 0xABCD r) ∧
    Terminates (fetchAdd .device p 1) 0xFFFF [⟨0xFFFF0000, true⟩, ⟨3, false⟩]
      0x80000001 := by
  intro p
  have h := subWord_compareExchange_iff .device p
  exact ⟨(h.1 0xFFFF 0xABCD).mpr ⟨Or.inl rfl, Or.inl (Or.inl rfl)⟩,
    (h.2.2 1 0xFFFF _ 0x80000001 (Or.inl rfl) (fun _ _ => Or.inl rfl)
      (Or.inl rfl)).2⟩

/-- A signed byte: the call with -1 as the expected value fails on a word whose
lowest byte is -1. -/
theorem subWord_not_right_int8 :
    ¬ ∀ (T : LaneType) (tag : ScopeTag) (p : Pointer T)
      (expected desired : BitVec T.bits) (moments : List Moment) (r : Result T),
      compareExchange tag p expected desired moments = some r →
        Right p expected desired r := by
  intro h
  let p : Pointer int8 := ⟨0, by decide⟩
  have hexpected : ¬ZeroExtended (T := int8) 0xFF := by decide
  obtain ⟨earlier, before, after, haccesses, -⟩ :=
    h int8 .device p 0xFF 0 [⟨0xFF, false⟩] _ (compareExchange_signed hexpected _)
  simp at haccesses

end Libhipcxx.Atomic.SubWord
