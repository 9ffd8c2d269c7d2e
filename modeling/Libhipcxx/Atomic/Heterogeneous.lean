import Mathlib.Data.Nat.Notation

/-!
# Atomics on a 32-bit proxy word

The operations of `__cxx_atomic_base_heterogeneous_impl` on the 32-bit word a
small atomic is kept in.  Nothing else touches the word while an operation
runs, so an operation is a function from the word to its result and the new
word, and a weak compare-exchange fails only on a mismatch.

`NV_DISPATCH_TARGET` chooses between the device builtins and the host
implementation of `support/atomic/atomic_base.h`; both are modelled.
-/

namespace Libhipcxx.Atomic

/-- The proxy object: an `int32_t` or a `uint32_t`. -/
abbrev Word := BitVec 32

/-- The two branches of `NV_DISPATCH_TARGET`. -/
inductive Target where
  | device
  | host
  deriving DecidableEq, Repr

namespace Heterogeneous

def cxxAtomicExchange (val word : Word) : Word × Word :=
  (word, val)

/-- On failure `*__expected` receives the word that was found. -/
def cxxAtomicCompareExchangeWeak (expected val word : Word) :
    Bool × Word × Word :=
  if word = expected then (true, expected, val) else (false, word, word)

def cxxAtomicCompareExchangeStrong (expected val word : Word) :
    Bool × Word × Word :=
  if word = expected then (true, expected, val) else (false, word, word)

def cxxAtomicFetchAdd (delta word : Word) : Word × Word :=
  (word, word + delta)

/-- The device has no fetch-sub builtin and adds the negated operand. -/
def cxxAtomicFetchSub : Target → Word → Word → Word × Word
  | .device, delta, word => cxxAtomicFetchAdd (-delta) word
  | .host, delta, word => (word, word - delta)

def cxxAtomicFetchAnd (pattern word : Word) : Word × Word :=
  (word, word &&& pattern)

def cxxAtomicFetchOr (pattern word : Word) : Word × Word :=
  (word, word ||| pattern)

def cxxAtomicFetchXor (pattern word : Word) : Word × Word :=
  (word, word ^^^ pattern)

/-- `a < b` as `int32_t` or as `uint32_t`. -/
def lessThan (isSigned : Bool) (a b : Word) : Bool :=
  if isSigned then a.slt b else a.ult b

/-- The host loop shared by fetch-max and fetch-min: `keep` says that the word
just observed is to stay.  One unit of fuel is one test of the loop. -/
def fetchExtremumLoop (keep : Word → Word → Bool) (val : Word) :
    ℕ → Word → Word → Option (Word × Word)
  | 0, _, _ => none
  | fuel + 1, expected, word =>
      let desired := if keep expected val then expected else val
      if desired = val then
        let (done, expected', word') :=
          cxxAtomicCompareExchangeStrong expected desired word
        if done then some (expected', word')
        else fetchExtremumLoop keep val fuel expected' word'
      else
        some (expected, word)

/-- Fetch-max or fetch-min: one builtin on the device, a loop that starts from
a relaxed load on the host. -/
def fetchExtremum (keep : Word → Word → Bool) (target : Target)
    (fuel : ℕ) (val word : Word) : Option (Word × Word) :=
  match target with
  | .device => some (word, if keep word val then word else val)
  | .host => fetchExtremumLoop keep val fuel word word

def cxxAtomicFetchMax (isSigned : Bool) : Target → ℕ → Word → Word →
    Option (Word × Word) :=
  fetchExtremum fun expected val => lessThan isSigned val expected

def cxxAtomicFetchMin (isSigned : Bool) : Target → ℕ → Word → Word →
    Option (Word × Word) :=
  fetchExtremum fun expected val => lessThan isSigned expected val

/-- Both targets subtract modulo `2 ^ 32`. -/
@[simp] theorem cxxAtomicFetchSub_eq (target : Target) (delta word : Word) :
    cxxAtomicFetchSub target delta word = (word, word - delta) := by
  cases target with
  | device =>
      simp only [cxxAtomicFetchSub, cxxAtomicFetchAdd]
      rw [BitVec.sub_eq_add_neg]
  | host => rfl

/-- Without interference the host loop leaves after one test, so both targets
return the old word and store the same new one. -/
theorem fetchExtremum_eq (keep : Word → Word → Bool) (target : Target)
    {fuel : ℕ} (hfuel : 0 < fuel) (val word : Word) :
    fetchExtremum keep target fuel val word =
      some (word, if keep word val then word else val) := by
  cases target with
  | device => rfl
  | host =>
      obtain ⟨fuel, rfl⟩ := Nat.exists_eq_succ_of_ne_zero (Nat.ne_of_gt hfuel)
      simp only [fetchExtremum, fetchExtremumLoop,
        cxxAtomicCompareExchangeStrong]
      by_cases hkeep : keep word val
      · by_cases hval : word = val
        · simp [hval]
        · simp [hkeep, hval]
      · simp [hkeep]

end Heterogeneous

end Libhipcxx.Atomic
