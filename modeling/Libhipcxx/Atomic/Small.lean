import Libhipcxx.Atomic.Heterogeneous
import Mathlib.Data.Int.Notation
import Mathlib.Logic.Basic

/-!
# Small atomics

An atomic object of a type `T` of one, two or three bytes lives in a 32-bit
proxy (`__cxx_atomic_base_small_impl`).  Values enter the proxy through
`__cxx_small_to_32` and leave it through `__cxx_small_from_32`; arithmetic
happens on the proxy itself, which is never cut back to the width of `T`.

A value of `T` is its object representation, `8 * sizeof(T)` bits in
little-endian order.
-/

namespace Libhipcxx.Atomic

/-- How `T` converts to and from its proxy.  Integers and `bool` are
arithmetic and use `static_cast`; every other trivially copyable type goes
through `memcpy`. -/
inductive SmallKind where
  | signedInt
  | unsignedInt
  | boolean
  | object
  deriving DecidableEq, Repr

/-- A type that `__cxx_atomic_base_impl` keeps in a proxy. -/
structure SmallType where
  bytes : ℕ
  kind : SmallKind
  bytes_pos : 0 < bytes := by decide
  bytes_lt : bytes < 4 := by decide
  bytes_boolean : kind = .boolean → bytes = 1 := by decide

/-- `uint8_t`. -/
def uint8 : SmallType where
  bytes := 1
  kind := .unsignedInt

/-- `int8_t`. -/
def int8 : SmallType where
  bytes := 1
  kind := .signedInt

namespace SmallType

/-- `8 * sizeof(_Tp)`. -/
abbrev bits (T : SmallType) : ℕ := 8 * T.bytes

/-- `is_signed<_Tp>::value`, which picks `int32_t` or `uint32_t`. -/
def isSigned (T : SmallType) : Bool := T.kind == .signedInt

/-- `bool` has two object representations; every other type uses all of
them. -/
def IsValue (T : SmallType) (v : BitVec T.bits) : Prop :=
  T.kind = .boolean → v.toNat ≤ 1

instance (T : SmallType) (v : BitVec T.bits) : Decidable (T.IsValue v) :=
  inferInstanceAs (Decidable (T.kind = .boolean → v.toNat ≤ 1))

/-- A value of `T`. -/
def Value (T : SmallType) : Type := {v : BitVec T.bits // T.IsValue v}

/-- The types whose atomics have read-modify-write arithmetic: all but
`bool`. -/
def HasFetch (T : SmallType) : Prop := T.kind ≠ .boolean

instance (T : SmallType) : Decidable T.HasFetch :=
  inferInstanceAs (Decidable (T.kind ≠ .boolean))

theorem bits_eq (T : SmallType) : T.bits = 8 * T.bytes := rfl

theorem bits_le (T : SmallType) : T.bits ≤ 24 := by
  have hbytes := T.bytes_lt
  rw [bits_eq]
  omega

theorem bits_pos (T : SmallType) : 0 < T.bits := by
  have hbytes := T.bytes_pos
  rw [bits_eq]
  omega

/-- `memcpy(&word, &val, sizeof(val))` on a little-endian machine. -/
def memcpyLow (word : Word) {n : ℕ} (val : BitVec n) : Word :=
  (word >>> n <<< n) ||| val.setWidth 32

def cxxSmallTo32 (T : SmallType) (val : BitVec T.bits) : Word :=
  match T.kind with
  | .signedInt => val.signExtend 32
  | .unsignedInt => val.setWidth 32
  | .boolean => val.setWidth 32
  | .object => memcpyLow 0 val

def cxxSmallFrom32 (T : SmallType) (val : Word) : BitVec T.bits :=
  match T.kind with
  | .signedInt => val.setWidth T.bits
  | .unsignedInt => val.setWidth T.bits
  | .boolean => if val = 0 then 0 else 1
  | .object => val.setWidth T.bits

/-- The bytes of an object, lowest address first. -/
def objectBytes (T : SmallType) (v : BitVec T.bits) : List (BitVec 8) :=
  (List.range T.bytes).map fun i => v.extractLsb' (8 * i) 8

/-- `__cuda_memcmp` over two byte ranges of one length. -/
def cudaMemcmp : List (BitVec 8) → List (BitVec 8) → ℤ
  | l :: lhs, r :: rhs =>
      if l < r then -1 else if l > r then 1 else cudaMemcmp lhs rhs
  | _, _ => 0

end SmallType

namespace Small

open SmallType

variable (T : SmallType)

def cxxAtomicInit (val : BitVec T.bits) : Word := T.cxxSmallTo32 val

def cxxAtomicStore (val : BitVec T.bits) (_word : Word) : Word :=
  T.cxxSmallTo32 val

def cxxAtomicLoad (word : Word) : BitVec T.bits := T.cxxSmallFrom32 word

/-- The shape shared by the read-modify-write operations: run `op` on the
proxy and convert the word it returns. -/
def viaProxy (op : Word → Word × Word) (word : Word) : BitVec T.bits × Word :=
  (T.cxxSmallFrom32 (op word).1, (op word).2)

def cxxAtomicExchange (value : BitVec T.bits) : Word → BitVec T.bits × Word :=
  viaProxy T (Heterogeneous.cxxAtomicExchange (T.cxxSmallTo32 value))

def cxxAtomicFetchAdd (delta : BitVec T.bits) : Word → BitVec T.bits × Word :=
  viaProxy T (Heterogeneous.cxxAtomicFetchAdd (T.cxxSmallTo32 delta))

def cxxAtomicFetchSub (target : Target) (delta : BitVec T.bits) :
    Word → BitVec T.bits × Word :=
  viaProxy T (Heterogeneous.cxxAtomicFetchSub target (T.cxxSmallTo32 delta))

def cxxAtomicFetchAnd (pattern : BitVec T.bits) :
    Word → BitVec T.bits × Word :=
  viaProxy T (Heterogeneous.cxxAtomicFetchAnd (T.cxxSmallTo32 pattern))

def cxxAtomicFetchOr (pattern : BitVec T.bits) : Word → BitVec T.bits × Word :=
  viaProxy T (Heterogeneous.cxxAtomicFetchOr (T.cxxSmallTo32 pattern))

def cxxAtomicFetchXor (pattern : BitVec T.bits) :
    Word → BitVec T.bits × Word :=
  viaProxy T (Heterogeneous.cxxAtomicFetchXor (T.cxxSmallTo32 pattern))

def cxxAtomicFetchMax (target : Target) (fuel : ℕ) (val : BitVec T.bits)
    (word : Word) : Option (BitVec T.bits × Word) :=
  (Heterogeneous.cxxAtomicFetchMax T.isSigned target fuel
    (T.cxxSmallTo32 val) word).map fun r => (T.cxxSmallFrom32 r.1, r.2)

def cxxAtomicFetchMin (target : Target) (fuel : ℕ) (val : BitVec T.bits)
    (word : Word) : Option (BitVec T.bits × Word) :=
  (Heterogeneous.cxxAtomicFetchMin T.isSigned target fuel
    (T.cxxSmallTo32 val) word).map fun r => (T.cxxSmallFrom32 r.1, r.2)

/-- `(1u << (8*sizeof(_Tp))) - 1`. -/
def mask : Word := ((1 : Word) <<< T.bits) - 1

/-- Returns the result, `*__expected` and the new proxy.  A failure that only
comes from the high bits of the proxy clears them and keeps `*__expected`. -/
def cxxAtomicCompareExchangeWeak (expected value : BitVec T.bits)
    (word : Word) : Bool × BitVec T.bits × Word :=
  let (ret, temp, word') :=
    Heterogeneous.cxxAtomicCompareExchangeWeak
      (T.cxxSmallTo32 expected) (T.cxxSmallTo32 value) word
  let actual := T.cxxSmallFrom32 temp
  if ret then
    (ret, expected, word')
  else if cudaMemcmp (T.objectBytes actual) (T.objectBytes expected) = 0 then
    (ret, expected, (Heterogeneous.cxxAtomicFetchAnd (mask T) word').2)
  else
    (ret, actual, word')

/-- The `while(1)` of the strong form; one unit of fuel is one iteration. -/
def compareExchangeStrongLoop (old value : BitVec T.bits) :
    ℕ → BitVec T.bits → Word → Option (Bool × BitVec T.bits × Word)
  | 0, _, _ => none
  | fuel + 1, expected, word =>
      let (ok, expected', word') :=
        cxxAtomicCompareExchangeWeak T expected value word
      if ok then some (true, expected', word')
      else if cudaMemcmp (T.objectBytes old) (T.objectBytes expected') ≠ 0 then
        some (false, expected', word')
      else
        compareExchangeStrongLoop old value fuel expected' word'

def cxxAtomicCompareExchangeStrong (fuel : ℕ) (expected value : BitVec T.bits)
    (word : Word) : Option (Bool × BitVec T.bits × Word) :=
  compareExchangeStrongLoop T expected value fuel expected word

end Small

namespace SmallType

variable {T : SmallType}

/-- Away from `bool`, leaving the proxy is truncation. -/
theorem cxxSmallFrom32_of_hasFetch (hT : T.HasFetch) (word : Word) :
    T.cxxSmallFrom32 word = word.setWidth T.bits := by
  unfold cxxSmallFrom32
  split
  · rfl
  · rfl
  · rename_i hkind
    exact absurd hkind hT
  · rfl

theorem cxxSmallTo32_of_signed (hT : T.kind = .signedInt)
    (v : BitVec T.bits) : T.cxxSmallTo32 v = v.signExtend 32 := by
  simp only [cxxSmallTo32, hT]

theorem memcpyLow_zero {n : ℕ} (v : BitVec n) :
    memcpyLow 0 v = v.setWidth 32 := by
  simp [memcpyLow]

theorem cxxSmallTo32_of_not_signed (hT : T.kind ≠ .signedInt)
    (v : BitVec T.bits) : T.cxxSmallTo32 v = v.setWidth 32 := by
  unfold cxxSmallTo32
  split
  · rename_i hkind
    exact absurd hkind hT
  · rfl
  · rfl
  · exact memcpyLow_zero v

/-- Whatever the kind, the low bits of the proxy made from `v` are `v`. -/
@[simp] theorem setWidth_cxxSmallTo32 (v : BitVec T.bits) :
    (T.cxxSmallTo32 v).setWidth T.bits = v := by
  have hbits := T.bits_le
  by_cases hT : T.kind = .signedInt
  · rw [cxxSmallTo32_of_signed hT]
    apply BitVec.eq_of_getLsbD_eq
    intro i hi
    have hi32 : i < 32 := by omega
    rw [BitVec.getLsbD_setWidth, BitVec.getLsbD_signExtend]
    simp only [hi, hi32, decide_true, Bool.true_and, ↓reduceIte]
  · rw [cxxSmallTo32_of_not_signed hT]
    apply BitVec.eq_of_getLsbD_eq
    intro i hi
    have hi32 : i < 32 := by omega
    simp only [BitVec.getLsbD_setWidth, hi, hi32, decide_true, Bool.true_and]

/-- Storing a value and loading it back gives the value. -/
@[simp] theorem cxxSmallFrom32_cxxSmallTo32 (v : T.Value) :
    T.cxxSmallFrom32 (T.cxxSmallTo32 v.1) = v.1 := by
  by_cases hT : T.kind = .boolean
  · have hone := v.2 hT
    have hbits := T.bits_le
    have hpos := T.bits_pos
    have hto : (T.cxxSmallTo32 v.1).toNat = v.1.toNat := by
      rw [cxxSmallTo32_of_not_signed (by simp [hT]), BitVec.toNat_setWidth]
      exact Nat.mod_eq_of_lt (by omega)
    have hfrom : T.cxxSmallFrom32 (T.cxxSmallTo32 v.1) =
        if T.cxxSmallTo32 v.1 = 0 then 0 else 1 := by
      simp only [cxxSmallFrom32, hT]
    have hone_toNat : (1 : BitVec T.bits).toNat = 1 := by
      simpa using Nat.one_mod_two_pow_eq_one.mpr hpos
    rw [hfrom]
    apply BitVec.eq_of_toNat_eq
    rcases Nat.le_one_iff_eq_zero_or_eq_one.mp hone with hv | hv
    · have hz : T.cxxSmallTo32 v.1 = 0 := by
        apply BitVec.eq_of_toNat_eq
        simp [hto, hv]
      simp [hz, hv]
    · have hnz : T.cxxSmallTo32 v.1 ≠ 0 := by
        intro hz
        rw [hz] at hto
        simp [hv] at hto
      rw [if_neg hnz, hone_toNat, hv]
  · rw [cxxSmallFrom32_of_hasFetch hT, setWidth_cxxSmallTo32]

theorem objectBytes_injective {v w : BitVec T.bits}
    (h : T.objectBytes v = T.objectBytes w) : v = w := by
  apply BitVec.eq_of_getLsbD_eq
  intro i hi
  have hbyte : i / 8 < T.bytes := by
    rw [bits_eq] at hi
    omega
  have hget := List.map_inj_left.mp h (i / 8) (List.mem_range.mpr hbyte)
  have hbit := congrArg (fun b : BitVec 8 => b.getLsbD (i % 8)) hget
  simpa [BitVec.getLsbD_extractLsb', Nat.mod_lt, Nat.div_add_mod] using hbit

theorem cudaMemcmp_eq_zero_iff {lhs rhs : List (BitVec 8)}
    (hlen : lhs.length = rhs.length) : cudaMemcmp lhs rhs = 0 ↔ lhs = rhs := by
  induction lhs generalizing rhs with
  | nil =>
      cases rhs with
      | nil => simp [cudaMemcmp]
      | cons r rhs => simp at hlen
  | cons l lhs ih =>
      cases rhs with
      | nil => simp at hlen
      | cons r rhs =>
          have hlen' : lhs.length = rhs.length := by simpa using hlen
          rw [cudaMemcmp]
          by_cases hlt : l < r
          · have hne : l ≠ r := BitVec.ne_of_lt hlt
            simp [hlt, hne]
          · by_cases hgt : l > r
            · have hne : l ≠ r := (BitVec.ne_of_lt hgt).symm
              simp [hlt, hgt, hne]
            · have heq : l = r :=
                BitVec.le_antisymm (BitVec.not_lt.mp hgt) (BitVec.not_lt.mp hlt)
              simp [heq, BitVec.lt_irrefl, ih hlen']

/-- `__cuda_memcmp` over two objects of type `T` decides equality. -/
@[simp] theorem cudaMemcmp_objectBytes (v w : BitVec T.bits) :
    cudaMemcmp (T.objectBytes v) (T.objectBytes w) = 0 ↔ v = w := by
  rw [cudaMemcmp_eq_zero_iff (by simp [objectBytes])]
  exact ⟨objectBytes_injective, fun h => by rw [h]⟩

end SmallType

end Libhipcxx.Atomic
