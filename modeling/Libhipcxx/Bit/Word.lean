import Libhipcxx.Bit.Fallback

/-!
# Bit counts of one word

The counts of one word go to an intrinsic of the compiler, or to the fallback
where the call is evaluated at compile time.

The intrinsics are not part of the library.  Those that look for a bit are
relied on for words that have one; the population counts are for all words.
-/

namespace Libhipcxx.Bit

open Fields

/-! ## Intrinsics -/

/-- The intrinsics, with `unsigned long` of 64 bits for `__builtin_popcountl`.
The scans give the position of a bit, if they find one. -/
structure Intrinsics where
  builtinCtz : BitVec 32 → ℤ
  builtinCtzll : BitVec 64 → ℤ
  builtinClz : BitVec 32 → ℤ
  builtinClzll : BitVec 64 → ℤ
  builtinPopcount : BitVec 32 → ℤ
  builtinPopcountl : BitVec 64 → ℤ
  ffs : BitVec 32 → ℤ
  ffsll : BitVec 64 → ℤ
  clz : BitVec 32 → ℤ
  clzll : BitVec 64 → ℤ
  popc : BitVec 32 → ℤ
  popcll : BitVec 64 → ℤ
  bitScanForward : BitVec 32 → Option ℕ
  bitScanForward64 : BitVec 64 → Option ℕ
  bitScanReverse : BitVec 32 → Option ℕ
  bitScanReverse64 : BitVec 64 → Option ℕ
  popcnt : BitVec 32 → ℤ
  popcnt64 : BitVec 64 → ℤ

/-- What the documentation of the compilers says. -/
structure Intrinsics.Correct (I : Intrinsics) : Prop where
  builtinCtz : ∀ x p, IsLowest x p → I.builtinCtz x = p
  builtinCtzll : ∀ x p, IsLowest x p → I.builtinCtzll x = p
  builtinClz : ∀ x p, IsHighest x p → I.builtinClz x = 31 - p
  builtinClzll : ∀ x p, IsHighest x p → I.builtinClzll x = 63 - p
  builtinPopcount : ∀ x, I.builtinPopcount x = bitCount 32 x.toNat
  builtinPopcountl : ∀ x, I.builtinPopcountl x = bitCount 64 x.toNat
  ffs : ∀ x p, IsLowest x p → I.ffs x = p + 1
  ffsll : ∀ x p, IsLowest x p → I.ffsll x = p + 1
  clz : ∀ x p, IsHighest x p → I.clz x = 31 - p
  clzll : ∀ x p, IsHighest x p → I.clzll x = 63 - p
  popc : ∀ x, I.popc x = bitCount 32 x.toNat
  popcll : ∀ x, I.popcll x = bitCount 64 x.toNat
  bitScanForward : ∀ x p, IsLowest x p → I.bitScanForward x = some p
  bitScanForward_zero : I.bitScanForward 0 = none
  bitScanForward64 : ∀ x p, IsLowest x p → I.bitScanForward64 x = some p
  bitScanReverse : ∀ x p, IsHighest x p → I.bitScanReverse x = some p
  bitScanReverse_zero : I.bitScanReverse 0 = none
  bitScanReverse64 : ∀ x p, IsHighest x p → I.bitScanReverse64 x = some p
  popcnt : ∀ x, I.popcnt x = bitCount 32 x.toNat
  popcnt64 : ∀ x, I.popcnt64 x = bitCount 64 x.toNat

/-- The compiler; the last one may lack the scans of 64 bits. -/
inductive Target where
  | cuda
  | gnu
  | msvc (forward64 reverse64 : Bool)

/-- How a call is compiled.  The fallback is for constant evaluation, and for
compilers that cannot find out about it. -/
structure Compilation where
  target : Target
  fallback : Bool
  intrinsics : Intrinsics

namespace Compilation

variable (K : Compilation)

/-- `__libcpp_ctz(unsigned)`. -/
def libcppCtz32 (x : BitVec 32) : ℤ :=
  match K.target with
  | .cuda =>
    if K.fallback then binaryCtz32 (x.setWidth 64) 0
    else if x = 0 then 32 else K.intrinsics.ffs x - 1
  | .gnu => K.intrinsics.builtinCtz x
  | .msvc _ _ =>
    if K.fallback then binaryCtz32 (x.setWidth 64) 0
    else
      match K.intrinsics.bitScanForward x with
      | some place => place
      | none => 32

/-- `__libcpp_ctz(unsigned long long)`. -/
def libcppCtz64 (x : BitVec 64) : ℤ :=
  match K.target with
  | .cuda =>
    if K.fallback then binaryCtz64 x
    else if x = 0 then 32 else K.intrinsics.ffsll x - 1
  | .gnu => K.intrinsics.builtinCtzll x
  | .msvc forward64 _ =>
    if K.fallback then binaryCtz64 x
    else if forward64 then
      match K.intrinsics.bitScanForward64 x with
      | some place => place
      | none => 64
    else
      match K.intrinsics.bitScanForward (x.setWidth 32) with
      | some place => place
      | none =>
        match K.intrinsics.bitScanForward ((x >>> 32).setWidth 32) with
        | some place => place + 32
        | none => 64

def libcppClz32 (x : BitVec 32) : ℤ :=
  match K.target with
  | .cuda => if K.fallback then binaryClz32 (x.setWidth 64) 0 else K.intrinsics.clz x
  | .gnu => K.intrinsics.builtinClz x
  | .msvc _ _ =>
    if K.fallback then binaryClz32 (x.setWidth 64) 0
    else
      match K.intrinsics.bitScanReverse x with
      | some place => 31 - place
      | none => 32

def libcppClz64 (x : BitVec 64) : ℤ :=
  match K.target with
  | .cuda => if K.fallback then binaryClz64 x else K.intrinsics.clzll x
  | .gnu => K.intrinsics.builtinClzll x
  | .msvc _ reverse64 =>
    if K.fallback then binaryClz64 x
    else if reverse64 then
      match K.intrinsics.bitScanReverse64 x with
      | some place => 63 - place
      | none => 64
    else
      match K.intrinsics.bitScanReverse ((x >>> 32).setWidth 32) with
      | some place => 63 - (place + 32)
      | none =>
        match K.intrinsics.bitScanReverse (x.setWidth 32) with
        | some place => 63 - place
        | none => 64

def libcppPopcount32 (x : BitVec 32) : ℤ :=
  match K.target with
  | .cuda => if K.fallback then fallbackPopc64 (x.setWidth 64) else K.intrinsics.popc x
  | .gnu => K.intrinsics.builtinPopcount x
  | .msvc _ _ => if K.fallback then fallbackPopc64 (x.setWidth 64) else K.intrinsics.popcnt x

def libcppPopcount64 (x : BitVec 64) : ℤ :=
  match K.target with
  | .cuda => if K.fallback then fallbackPopc64 x else K.intrinsics.popcll x
  | .gnu => K.intrinsics.builtinPopcountl x
  | .msvc _ _ => if K.fallback then fallbackPopc64 x else K.intrinsics.popcnt64 x

end Compilation

/-! ## Set bits of parts of a word -/

variable {v w : ℕ} {p : ℕ}

theorem IsLowest.lt {x : BitVec w} (h : IsLowest x p) : p < w :=
  BitVec.lt_of_getLsbD h.set

theorem IsHighest.lt {x : BitVec w} (h : IsHighest x p) : p < w :=
  BitVec.lt_of_getLsbD h.set

theorem ne_zero_of_set {x : BitVec w} (h : x.getLsbD p = true) : x ≠ 0 := by
  rintro rfl
  have hzero : (0#w).getLsbD p = false := BitVec.getLsbD_zero
  exact Bool.false_ne_true (hzero.symm.trans h)

theorem eq_zero_of_bits {x : BitVec w} (h : ∀ i < w, x.getLsbD i = false) : x = 0 := by
  apply BitVec.eq_of_getLsbD_eq
  intro i hi
  rw [h i hi]
  exact BitVec.getLsbD_zero.symm

theorem getLsbD_setWidth_of_lt (x : BitVec w) {i : ℕ} (h : i < v) :
    (x.setWidth v).getLsbD i = x.getLsbD i := by
  rw [BitVec.getLsbD_setWidth, decide_eq_true h, Bool.true_and]

theorem IsLowest.setWidth {x : BitVec w} (h : IsLowest x p) (hp : p < v) :
    IsLowest (x.setWidth v) p := by
  constructor
  · rw [getLsbD_setWidth_of_lt x hp]
    exact h.set
  · intro i hi
    rw [getLsbD_setWidth_of_lt x (hi.trans hp)]
    exact h.below i hi

theorem IsHighest.setWidth {x : BitVec w} (h : IsHighest x p) (hp : p < v) :
    IsHighest (x.setWidth v) p := by
  constructor
  · rw [getLsbD_setWidth_of_lt x hp]
    exact h.set
  · intro i hi
    rw [BitVec.getLsbD_setWidth, h.above i hi, Bool.and_false]

/-- The half of a word that has the lowest bit. -/
theorem IsLowest.halves {x : BitVec 64} (h : IsLowest x p) :
    (p < 32 ∧ IsLowest (x.setWidth 32) p) ∨
      (32 ≤ p ∧ x.setWidth 32 = 0 ∧ IsLowest ((x >>> 32).setWidth 32) (p - 32)) := by
  have hp := h.lt
  rcases lt_or_ge p 32 with hlow | hhigh
  · exact Or.inl ⟨hlow, h.setWidth hlow⟩
  · refine Or.inr ⟨hhigh, ?_, (h.shift hhigh).setWidth (by omega)⟩
    apply eq_zero_of_bits
    intro i hi
    rw [getLsbD_setWidth_of_lt x hi]
    exact h.below i (by omega)

theorem IsHighest.halves {x : BitVec 64} (h : IsHighest x p) :
    (32 ≤ p ∧ IsHighest ((x >>> 32).setWidth 32) (p - 32)) ∨
      (p < 32 ∧ (x >>> 32).setWidth 32 = 0 ∧ IsHighest (x.setWidth 32) p) := by
  have hp := h.lt
  rcases lt_or_ge p 32 with hlow | hhigh
  · refine Or.inr ⟨hlow, ?_, h.setWidth hlow⟩
    apply eq_zero_of_bits
    intro i hi
    rw [getLsbD_setWidth_of_lt _ hi, BitVec.getLsbD_ushiftRight]
    exact h.above _ (by omega)
  · exact Or.inl ⟨hhigh, (h.shift hhigh).setWidth (by omega)⟩

/-- The highest bit says between which powers of two the value is. -/
theorem IsHighest.bounds {x : BitVec w} (h : IsHighest x p) :
    2 ^ p ≤ x.toNat ∧ x.toNat < 2 ^ (p + 1) := by
  constructor
  · exact Nat.ge_two_pow_of_testBit (BitVec.testBit_toNat x ▸ h.set)
  · apply Nat.lt_pow_two_of_testBit
    intro i hi
    rw [BitVec.testBit_toNat]
    exact h.above i hi

/-! ## Fallbacks as intrinsics -/

theorem binaryCtz32_eq {x : BitVec 32} (hx : IsLowest x p) :
    binaryCtz32 (x.setWidth 64) 0 = p := by
  have hwide := hx.setWidth (v := 64) (hx.lt.trans (by decide))
  rw [addsLowest_binaryCtz32 _ p 0 hwide hx.lt, Nat.zero_add]

theorem binaryClz32_eq {x : BitVec 32} (hx : IsHighest x p) :
    binaryClz32 (x.setWidth 64) 0 = 31 - p := by
  have hwide := hx.setWidth (v := 64) (hx.lt.trans (by decide))
  rw [addsAbove_binaryClz32 _ p 0 hwide hx.lt (by decide), Nat.zero_add]

theorem fallbackPopc64_setWidth (x : BitVec 32) :
    fallbackPopc64 (x.setWidth 64) = bitCount 32 x.toNat := by
  rw [fallbackPopc64_eq, BitVec.toNat_setWidth_of_le (by decide),
    bitCount_of_lt x.isLt (by decide)]

/-- Intrinsics that do what the fallbacks do. -/
def Intrinsics.ofFallback : Intrinsics where
  builtinCtz x := binaryCtz32 (x.setWidth 64) 0
  builtinCtzll x := binaryCtz64 x
  builtinClz x := binaryClz32 (x.setWidth 64) 0
  builtinClzll x := binaryClz64 x
  builtinPopcount x := fallbackPopc64 (x.setWidth 64)
  builtinPopcountl x := fallbackPopc64 x
  ffs x := if x = 0 then 0 else binaryCtz32 (x.setWidth 64) 0 + 1
  ffsll x := if x = 0 then 0 else binaryCtz64 x + 1
  clz x := if x = 0 then 32 else binaryClz32 (x.setWidth 64) 0
  clzll x := if x = 0 then 64 else binaryClz64 x
  popc x := fallbackPopc64 (x.setWidth 64)
  popcll x := fallbackPopc64 x
  bitScanForward x := if x = 0 then none else some (binaryCtz32 (x.setWidth 64) 0)
  bitScanForward64 x := if x = 0 then none else some (binaryCtz64 x)
  bitScanReverse x := if x = 0 then none else some (31 - binaryClz32 (x.setWidth 64) 0)
  bitScanReverse64 x := if x = 0 then none else some (63 - binaryClz64 x)
  popcnt x := fallbackPopc64 (x.setWidth 64)
  popcnt64 x := fallbackPopc64 x

theorem Intrinsics.ofFallback_correct : Intrinsics.ofFallback.Correct := by
  have hctz (x : BitVec 32) p (hx : IsLowest x p) := binaryCtz32_eq hx
  have hctzll (x : BitVec 64) p (hx : IsLowest x p) := binaryCtz64_eq hx hx.lt
  have hclz (x : BitVec 32) p (hx : IsHighest x p) :
      (binaryClz32 (x.setWidth 64) 0 : ℤ) = 31 - p ∧ p = 31 - binaryClz32 (x.setWidth 64) 0 := by
    have hlt := hx.lt
    rw [binaryClz32_eq hx]
    omega
  have hclzll (x : BitVec 64) p (hx : IsHighest x p) :
      (binaryClz64 x : ℤ) = 63 - p ∧ p = 63 - binaryClz64 x := by
    have hlt := hx.lt
    rw [binaryClz64_eq hx hlt]
    omega
  have hpopc (x : BitVec 32) : (fallbackPopc64 (x.setWidth 64) : ℤ) = bitCount 32 x.toNat :=
    congrArg _ (fallbackPopc64_setWidth x)
  have hpopcll (x : BitVec 64) : (fallbackPopc64 x : ℤ) = bitCount 64 x.toNat :=
    congrArg _ (fallbackPopc64_eq x)
  constructor
  case builtinCtz => exact fun x p hx => congrArg _ (hctz x p hx)
  case builtinCtzll => exact fun x p hx => congrArg _ (hctzll x p hx)
  case builtinClz => exact fun x p hx => (hclz x p hx).1
  case builtinClzll => exact fun x p hx => (hclzll x p hx).1
  case builtinPopcount => exact hpopc
  case builtinPopcountl => exact hpopcll
  case ffs =>
    intro x p hx
    simp only [ofFallback, if_neg (ne_zero_of_set hx.set), hctz x p hx]
  case ffsll =>
    intro x p hx
    simp only [ofFallback, if_neg (ne_zero_of_set hx.set), hctzll x p hx]
  case clz =>
    intro x p hx
    simp only [ofFallback, if_neg (ne_zero_of_set hx.set), (hclz x p hx).1]
  case clzll =>
    intro x p hx
    simp only [ofFallback, if_neg (ne_zero_of_set hx.set), (hclzll x p hx).1]
  case popc => exact hpopc
  case popcll => exact hpopcll
  case bitScanForward =>
    intro x p hx
    simp only [ofFallback, if_neg (ne_zero_of_set hx.set), hctz x p hx]
  case bitScanForward_zero => simp only [ofFallback, if_true]
  case bitScanForward64 =>
    intro x p hx
    simp only [ofFallback, if_neg (ne_zero_of_set hx.set), hctzll x p hx]
  case bitScanReverse =>
    intro x p hx
    simp only [ofFallback, if_neg (ne_zero_of_set hx.set), ← (hclz x p hx).2]
  case bitScanReverse_zero => simp only [ofFallback, if_true]
  case bitScanReverse64 =>
    intro x p hx
    simp only [ofFallback, if_neg (ne_zero_of_set hx.set), ← (hclzll x p hx).2]
  case popcnt => exact hpopc
  case popcnt64 => exact hpopcll

/-! ## The counts -/

namespace Compilation

variable {K : Compilation} (hK : K.intrinsics.Correct)

include hK

theorem libcppCtz32_eq {x : BitVec 32} (hx : IsLowest x p) : K.libcppCtz32 x = p := by
  obtain ⟨target, fallback, I⟩ := K
  have hfallback : (binaryCtz32 (x.setWidth 64) 0 : ℤ) = p := congrArg _ (binaryCtz32_eq hx)
  cases target with
  | cuda =>
    rw [libcppCtz32]
    dsimp only
    rw [if_neg (ne_zero_of_set hx.set), hK.ffs x p hx, hfallback, add_sub_cancel_right, ite_self]
  | gnu => exact hK.builtinCtz x p hx
  | msvc forward64 reverse64 =>
    rw [libcppCtz32]
    dsimp only
    rw [hK.bitScanForward x p hx, hfallback, ite_self]

theorem libcppCtz64_eq {x : BitVec 64} (hx : IsLowest x p) : K.libcppCtz64 x = p := by
  obtain ⟨target, fallback, I⟩ := K
  have hfallback : (binaryCtz64 x : ℤ) = p := congrArg _ (binaryCtz64_eq hx hx.lt)
  cases target with
  | cuda =>
    rw [libcppCtz64]
    dsimp only
    rw [if_neg (ne_zero_of_set hx.set), hK.ffsll x p hx, hfallback, add_sub_cancel_right, ite_self]
  | gnu => exact hK.builtinCtzll x p hx
  | msvc forward64 reverse64 =>
    rw [libcppCtz64]
    dsimp only
    rw [hK.bitScanForward64 x p hx, hfallback]
    rcases hx.halves with ⟨-, hlow⟩ | ⟨hge, hzero, hhigh⟩
    · rw [hK.bitScanForward _ p hlow, ite_self, ite_self]
    · rw [hzero, hK.bitScanForward_zero, hK.bitScanForward _ _ hhigh]
      have hplace : ((p - 32 : ℕ) : ℤ) + 32 = p := by omega
      dsimp only
      rw [hplace, ite_self, ite_self]

theorem libcppClz32_eq {x : BitVec 32} (hx : IsHighest x p) : K.libcppClz32 x = 31 - p := by
  obtain ⟨target, fallback, I⟩ := K
  have hp := hx.lt
  have hfallback : (binaryClz32 (x.setWidth 64) 0 : ℤ) = 31 - p := by
    rw [binaryClz32_eq hx]
    omega
  cases target with
  | cuda =>
    rw [libcppClz32]
    dsimp only
    rw [hK.clz x p hx, hfallback, ite_self]
  | gnu => exact hK.builtinClz x p hx
  | msvc forward64 reverse64 =>
    rw [libcppClz32]
    dsimp only
    rw [hK.bitScanReverse x p hx, hfallback, ite_self]

theorem libcppClz64_eq {x : BitVec 64} (hx : IsHighest x p) : K.libcppClz64 x = 63 - p := by
  obtain ⟨target, fallback, I⟩ := K
  have hp := hx.lt
  have hfallback : (binaryClz64 x : ℤ) = 63 - p := by
    rw [binaryClz64_eq hx hp]
    omega
  cases target with
  | cuda =>
    rw [libcppClz64]
    dsimp only
    rw [hK.clzll x p hx, hfallback, ite_self]
  | gnu => exact hK.builtinClzll x p hx
  | msvc forward64 reverse64 =>
    rw [libcppClz64]
    dsimp only
    rw [hK.bitScanReverse64 x p hx, hfallback]
    rcases hx.halves with ⟨hge, hhigh⟩ | ⟨-, hzero, hlow⟩
    · have hplace : (63 : ℤ) - (((p - 32 : ℕ) : ℤ) + 32) = 63 - p := by omega
      rw [hK.bitScanReverse _ _ hhigh]
      dsimp only
      rw [hplace, ite_self, ite_self]
    · rw [hzero, hK.bitScanReverse_zero, hK.bitScanReverse _ _ hlow, ite_self, ite_self]

theorem libcppPopcount32_eq (x : BitVec 32) :
    K.libcppPopcount32 x = bitCount 32 x.toNat := by
  obtain ⟨target, fallback, I⟩ := K
  have hfallback : (fallbackPopc64 (x.setWidth 64) : ℤ) = bitCount 32 x.toNat :=
    congrArg _ (fallbackPopc64_setWidth x)
  cases target with
  | cuda =>
    rw [libcppPopcount32]
    dsimp only
    rw [hK.popc, hfallback, ite_self]
  | gnu => exact hK.builtinPopcount x
  | msvc forward64 reverse64 =>
    rw [libcppPopcount32]
    dsimp only
    rw [hK.popcnt, hfallback, ite_self]

theorem libcppPopcount64_eq (x : BitVec 64) :
    K.libcppPopcount64 x = bitCount 64 x.toNat := by
  obtain ⟨target, fallback, I⟩ := K
  have hfallback : (fallbackPopc64 x : ℤ) = bitCount 64 x.toNat :=
    congrArg _ (fallbackPopc64_eq x)
  cases target with
  | cuda =>
    rw [libcppPopcount64]
    dsimp only
    rw [hK.popcll, hfallback, ite_self]
  | gnu => exact hK.builtinPopcountl x
  | msvc forward64 reverse64 =>
    rw [libcppPopcount64]
    dsimp only
    rw [hK.popcnt64, hfallback, ite_self]

end Compilation

end Libhipcxx.Bit
