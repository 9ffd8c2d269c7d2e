import Mathlib.Data.Nat.Notation
import Mathlib.Logic.Basic

/-!
# Compare-exchange on the device

The device layer has one `__atomic_compare_exchange_cuda` for each scope and
each width of four and eight bytes.  They hand the operation to a builtin of the
compiler.  A builtin is one atomic step, so it is a function from the object to
the result, `*__expected` and the new object; the weak one may fail although the
object has the expected value, and `spurious` says that it does.
-/

namespace Libhipcxx.Atomic.Device

/-- `thread_scope`. -/
inductive ThreadScope where
  | system
  | device
  | block
  | thread
  deriving DecidableEq, Repr

/-- The tag types that select an overload. -/
inductive ScopeTag where
  | block
  | device
  | system
  deriving DecidableEq, Repr

/-- `__scope_enum_to_tag`; there is no implementation of its own for a single
thread. -/
def scopeEnumToTag : ThreadScope → ScopeTag
  | .thread => .block
  | .block => .block
  | .device => .device
  | .system => .system

/-- `sizeof(_Type)`. -/
inductive Width where
  | four
  | eight
  deriving DecidableEq, Repr

def Width.bits : Width → ℕ
  | .four => 32
  | .eight => 64

variable {n : ℕ}

/-- `__hip_atomic_compare_exchange_strong`. -/
def hipAtomicCompareExchangeStrong (expected desired object : BitVec n) :
    Bool × BitVec n × BitVec n :=
  if object = expected then (true, expected, desired) else (false, object, object)

/-- `__hip_atomic_compare_exchange_weak`. -/
def hipAtomicCompareExchangeWeak (spurious : Bool)
    (expected desired object : BitVec n) : Bool × BitVec n × BitVec n :=
  if spurious then (false, object, object)
  else hipAtomicCompareExchangeStrong expected desired object

/-- `__atomic_compare_exchange_cuda`, one line for each overload.  Only one of
them reads its flag. -/
def atomicCompareExchangeCuda (tag : ScopeTag) (width : Width) (isWeak : Bool)
    (spurious : Bool) (expected desired object : BitVec n) :
    Bool × BitVec n × BitVec n :=
  match tag, width with
  | .block, .four => hipAtomicCompareExchangeWeak spurious expected desired object
  | .block, .eight => hipAtomicCompareExchangeWeak spurious expected desired object
  | .device, .four => hipAtomicCompareExchangeWeak spurious expected desired object
  | .device, .eight => hipAtomicCompareExchangeWeak spurious expected desired object
  | .system, .four =>
      if isWeak then hipAtomicCompareExchangeWeak spurious expected desired object
      else hipAtomicCompareExchangeStrong expected desired object
  | .system, .eight => hipAtomicCompareExchangeWeak spurious expected desired object

/-- `__cxx_atomic_compare_exchange_strong`, the branch of the device. -/
def cxxAtomicCompareExchangeStrong (scope : ThreadScope) (width : Width)
    (spurious : Bool) (expected val object : BitVec width.bits) :
    Bool × BitVec width.bits × BitVec width.bits :=
  atomicCompareExchangeCuda (scopeEnumToTag scope) width false spurious expected
    val object

/-- `__cxx_atomic_compare_exchange_weak`, the branch of the device. -/
def cxxAtomicCompareExchangeWeak (scope : ThreadScope) (width : Width)
    (spurious : Bool) (expected val object : BitVec width.bits) :
    Bool × BitVec width.bits × BitVec width.bits :=
  atomicCompareExchangeCuda (scopeEnumToTag scope) width true spurious expected
    val object

/-! ## What a result says -/

variable {expected desired object : BitVec n} {r : Bool × BitVec n × BitVec n}

/-- A failure says that the object differed from the expected value, which
receives the object, and a success that the object has been replaced. -/
structure Definite (expected desired object : BitVec n)
    (r : Bool × BitVec n × BitVec n) : Prop where
  failed : r.1 = false → object ≠ expected ∧ r.2.1 = object ∧ r.2.2 = object
  replaced : r.1 = true → object = expected ∧ r.2.2 = desired

/-- The same, but a failure says nothing about the object. -/
structure Indefinite (expected desired object : BitVec n)
    (r : Bool × BitVec n × BitVec n) : Prop where
  failed : r.1 = false → r.2.1 = object ∧ r.2.2 = object
  replaced : r.1 = true → object = expected ∧ r.2.2 = desired

theorem strong_definite (expected desired object : BitVec n) :
    Definite expected desired object
      (hipAtomicCompareExchangeStrong expected desired object) := by
  rw [hipAtomicCompareExchangeStrong]
  split
  · rename_i heq
    exact ⟨by simp, fun _ => ⟨heq, rfl⟩⟩
  · rename_i hne
    exact ⟨fun _ => ⟨hne, rfl, rfl⟩, by simp⟩

theorem Definite.indefinite (h : Definite expected desired object r) :
    Indefinite expected desired object r :=
  ⟨fun hfailed => (h.failed hfailed).2, h.replaced⟩

theorem weak_indefinite (spurious : Bool) (expected desired object : BitVec n) :
    Indefinite expected desired object
      (hipAtomicCompareExchangeWeak spurious expected desired object) := by
  rw [hipAtomicCompareExchangeWeak]
  split
  · exact ⟨fun _ => ⟨rfl, rfl⟩, by simp⟩
  · exact (strong_definite expected desired object).indefinite

/-- The weak builtin is definite where the object does not have the expected
value: there its failure is no accident. -/
theorem weak_definite_iff :
    (∀ spurious, Definite expected desired object
      (hipAtomicCompareExchangeWeak spurious expected desired object)) ↔
    object ≠ expected := by
  constructor
  · intro h
    exact ((h true).failed rfl).1
  · intro hne spurious
    have hweak := weak_indefinite spurious expected desired object
    refine ⟨?_, hweak.replaced⟩
    intro hfailed
    exact ⟨hne, hweak.failed hfailed⟩

/-- Every overload but one is the weak builtin, whatever its flag. -/
theorem atomicCompareExchangeCuda_weak {tag : ScopeTag} {width : Width}
    (h : ¬(tag = .system ∧ width = .four)) (isWeak spurious : Bool) :
    atomicCompareExchangeCuda tag width isWeak spurious expected desired object =
      hipAtomicCompareExchangeWeak spurious expected desired object := by
  cases tag with
  | block => cases width <;> rfl
  | device => cases width <;> rfl
  | system =>
      cases width with
      | four => exact absurd ⟨rfl, rfl⟩ h
      | eight => rfl

/-- The strong form is definite at system scope with four bytes, and elsewhere
exactly where the object does not have the expected value. -/
theorem compareExchangeStrong_definite_iff (scope : ThreadScope) (width : Width)
    (expected val object : BitVec width.bits) :
    (∀ spurious, Definite expected val object
      (cxxAtomicCompareExchangeStrong scope width spurious expected val object)) ↔
    (scope = .system ∧ width = .four) ∨ object ≠ expected := by
  have hscope : scope = .system ↔ scopeEnumToTag scope = .system := by
    cases scope <;> decide
  rw [hscope]
  simp only [cxxAtomicCompareExchangeStrong]
  by_cases hflag : scopeEnumToTag scope = .system ∧ width = .four
  · have hstrong : ∀ spurious, Definite expected val object
        (atomicCompareExchangeCuda (scopeEnumToTag scope) width false spurious
          expected val object) := by
      obtain ⟨htag, rfl⟩ := hflag
      rw [htag]
      intro spurious
      exact strong_definite expected val object
    exact iff_of_true hstrong (Or.inl hflag)
  · simp only [atomicCompareExchangeCuda_weak hflag, hflag, false_or]
    exact weak_definite_iff

/-- At block scope with four bytes the strong form fails on an object that has
the expected value. -/
theorem compareExchangeStrong_not_definite_block :
    ¬ ∀ (scope : ThreadScope) (width : Width)
      (expected val object : BitVec width.bits) (spurious : Bool),
      Definite expected val object
        (cxxAtomicCompareExchangeStrong scope width spurious expected val
          object) := by
  intro h
  have hfailed := (h .block .four 7 1 7 true).failed rfl
  exact hfailed.1 rfl

end Libhipcxx.Atomic.Device
