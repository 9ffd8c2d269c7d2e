import Libhipcxx.Support.Fields
import Mathlib.Data.Nat.Bitwise
import Mathlib.Tactic.IntervalCases

/-!
# Bit counts without intrinsics

The counts of zeros are binary searches: each function looks at one half of
what is left of the word and adds the width of the half to the count, or shifts
it away.  The population count adds up fields of a word at once.

The words are `uint64_t`, and the negations count as the numbers zero and one.
-/

namespace Libhipcxx.Bit

open Fields

/-- `!x`, as a number. -/
def isZero (x : BitVec 64) : ℕ := if x = 0 then 1 else 0

/-- `!!x`. -/
def isNonzero (x : BitVec 64) : ℕ := if x = 0 then 0 else 1

/-! ## Trailing zeros -/

/-- The half of the word below `half` is shifted away if it is empty. -/
def ctzHalf (next : BitVec 64 → ℕ → ℕ) (half : ℕ) (mask x : BitVec 64) (c : ℕ) : ℕ :=
  next (x >>> (half * isZero (x &&& mask))) (c + half * isZero (x &&& mask))

def binaryCtz2 (x : BitVec 64) (c : ℕ) : ℕ := if x &&& 0x1 ≠ 0 then c else c + 1

def binaryCtz4 : BitVec 64 → ℕ → ℕ := ctzHalf binaryCtz2 2 0x3

def binaryCtz8 : BitVec 64 → ℕ → ℕ := ctzHalf binaryCtz4 4 0x0F

def binaryCtz16 : BitVec 64 → ℕ → ℕ := ctzHalf binaryCtz8 8 0x00FF

def binaryCtz32 : BitVec 64 → ℕ → ℕ := ctzHalf binaryCtz16 16 0x0000FFFF

def binaryCtz64 (x : BitVec 64) : ℕ := ctzHalf binaryCtz32 32 0x00000000FFFFFFFF x 0

/-! ## Leading zeros -/

/-- The word is shifted down if its upper half is not empty. -/
def clzHalf (next : BitVec 64 → ℕ → ℕ) (half : ℕ) (mask x : BitVec 64) (c : ℕ) : ℕ :=
  next (x >>> (half * isNonzero (x &&& mask))) (c + half * isZero (x &&& mask))

def binaryClz2 (x : BitVec 64) (c : ℕ) : ℕ := isNonzero (~~~x &&& 0x2) ^^^ c

def binaryClz4 : BitVec 64 → ℕ → ℕ := clzHalf binaryClz2 2 0xC

def binaryClz8 : BitVec 64 → ℕ → ℕ := clzHalf binaryClz4 4 0xF0

def binaryClz16 : BitVec 64 → ℕ → ℕ := clzHalf binaryClz8 8 0xFF00

def binaryClz32 : BitVec 64 → ℕ → ℕ := clzHalf binaryClz16 16 0xFFFF0000

def binaryClz64 (x : BitVec 64) : ℕ := clzHalf binaryClz32 32 0xFFFFFFFF00000000 x 0

/-! ## Population count -/

def fallbackPopc8 (x : BitVec 64) : ℕ := ((x * 0x0101010101010101#64) >>> 56).toNat

def fallbackPopc16 (x : BitVec 64) : ℕ :=
  fallbackPopc8 ((x + (x >>> 4)) &&& 0x0f0f0f0f0f0f0f0f#64)

def fallbackPopc32 (x : BitVec 64) : ℕ :=
  fallbackPopc16 ((x &&& 0x3333333333333333#64) + ((x >>> 2) &&& 0x3333333333333333#64))

def fallbackPopc64 (x : BitVec 64) : ℕ :=
  fallbackPopc32 (x - ((x >>> 1) &&& 0x5555555555555555#64))

/-! ## The lowest and the highest set bit -/

variable {w : ℕ}

/-- The bit is set and none below it is. -/
structure IsLowest (x : BitVec w) (p : ℕ) : Prop where
  set : x.getLsbD p = true
  below : ∀ i < p, x.getLsbD i = false

/-- The bit is set and none above it is. -/
structure IsHighest (x : BitVec w) (p : ℕ) : Prop where
  set : x.getLsbD p = true
  above : ∀ i, p < i → x.getLsbD i = false

variable {x mask : BitVec 64} {p lo hi half : ℕ} {next : BitVec 64 → ℕ → ℕ}

/-- The mask has the bits of a range. -/
def IsMask (mask : BitVec 64) (lo hi : ℕ) : Prop :=
  ∀ i < 64, mask.getLsbD i = decide (lo ≤ i ∧ i < hi)

instance (mask : BitVec 64) (lo hi : ℕ) : Decidable (IsMask mask lo hi) :=
  inferInstanceAs (Decidable (∀ i < 64, _))

theorem and_mask_eq_zero_iff (hmask : IsMask mask lo hi) :
    x &&& mask = 0 ↔ ∀ i, lo ≤ i → i < hi → x.getLsbD i = false := by
  constructor
  · intro hzero i hlo hhi
    by_cases hlt : i < 64
    · have hbit : (x &&& mask).getLsbD i = false := by
        rw [hzero]
        exact BitVec.getLsbD_zero
      rwa [BitVec.getLsbD_and, hmask i hlt, decide_eq_true ⟨hlo, hhi⟩, Bool.and_true] at hbit
    · exact BitVec.getLsbD_of_ge x i (not_lt.mp hlt)
  · intro hbits
    apply BitVec.eq_of_getLsbD_eq
    intro i hlt
    change _ = (0#64).getLsbD i
    rw [BitVec.getLsbD_and, hmask i hlt, BitVec.getLsbD_zero]
    by_cases hrange : lo ≤ i ∧ i < hi
    · rw [hbits i hrange.1 hrange.2, Bool.false_and]
    · rw [decide_eq_false hrange, Bool.and_false]

theorem and_mask_ne_zero (hmask : IsMask mask lo hi) (hset : x.getLsbD p = true)
    (hlo : lo ≤ p) (hhi : p < hi) : x &&& mask ≠ 0 := by
  intro hzero
  rw [(and_mask_eq_zero_iff hmask).mp hzero p hlo hhi] at hset
  exact Bool.false_ne_true hset

theorem IsLowest.shift (hx : IsLowest x p) (h : half ≤ p) :
    IsLowest (x >>> half) (p - half) := by
  constructor
  · rw [BitVec.getLsbD_ushiftRight, Nat.add_sub_cancel' h]
    exact hx.set
  · intro i hi
    rw [BitVec.getLsbD_ushiftRight]
    exact hx.below _ (by omega)

theorem IsHighest.shift (hx : IsHighest x p) (h : half ≤ p) :
    IsHighest (x >>> half) (p - half) := by
  constructor
  · rw [BitVec.getLsbD_ushiftRight, Nat.add_sub_cancel' h]
    exact hx.set
  · intro i hi
    rw [BitVec.getLsbD_ushiftRight]
    exact hx.above _ (by omega)

/-! ## The searches -/

/-- The function adds the position of the lowest set bit, if that is one of the
first `n`. -/
def AddsLowest (f : BitVec 64 → ℕ → ℕ) (n : ℕ) : Prop :=
  ∀ x p c, IsLowest x p → p < n → f x c = c + p

theorem addsLowest_binaryCtz2 : AddsLowest binaryCtz2 2 := by
  intro x p c hx hp
  have hmask : IsMask 0x1 0 1 := by decide
  rw [binaryCtz2]
  interval_cases p
  · exact if_pos (and_mask_ne_zero hmask hx.set le_rfl Nat.one_pos)
  · apply if_neg
    rw [not_not, and_mask_eq_zero_iff hmask]
    intro i _ hi
    exact hx.below i hi

/-- One step of the search. -/
theorem addsLowest_ctzHalf (hnext : AddsLowest next half) (hmask : IsMask mask 0 half) :
    AddsLowest (ctzHalf next half mask) (2 * half) := by
  intro x p c hx hp
  rw [ctzHalf, isZero]
  by_cases hhalf : p < half
  · rw [if_neg (and_mask_ne_zero hmask hx.set (Nat.zero_le p) hhalf), Nat.mul_zero]
    exact hnext x p c hx hhalf
  · have hzero : x &&& mask = 0 :=
      (and_mask_eq_zero_iff hmask).mpr fun i _ hi => hx.below i (by omega)
    rw [if_pos hzero, Nat.mul_one, hnext _ _ _ (hx.shift (not_lt.mp hhalf)) (by omega)]
    omega

theorem addsLowest_binaryCtz32 : AddsLowest binaryCtz32 32 :=
  addsLowest_ctzHalf (addsLowest_ctzHalf (addsLowest_ctzHalf
    (addsLowest_ctzHalf addsLowest_binaryCtz2 (by decide : IsMask 0x3 0 2))
    (by decide : IsMask 0x0F 0 4)) (by decide : IsMask 0x00FF 0 8))
    (by decide : IsMask 0x0000FFFF 0 16)

theorem binaryCtz64_eq (hx : IsLowest x p) (hp : p < 64) : binaryCtz64 x = p := by
  have hmask : IsMask 0x00000000FFFFFFFF 0 32 := by decide
  have hadds := addsLowest_ctzHalf addsLowest_binaryCtz32 hmask x p 0 hx hp
  rwa [Nat.zero_add] at hadds

/-- The function adds the number of bits above the highest set one among the
first `n`. -/
def AddsAbove (f : BitVec 64 → ℕ → ℕ) (n : ℕ) : Prop :=
  ∀ x p c, IsHighest x p → p < n → Even c → f x c = c + (n - 1 - p)

theorem xor_of_even {b c : ℕ} (hb : b ≤ 1) (hc : Even c) : b ^^^ c = c + b := by
  interval_cases b
  · exact Nat.zero_xor c
  · rw [Nat.xor_comm]
    exact Nat.xor_one_of_even hc

/-- The exclusive or adds, since the count so far is even. -/
theorem addsAbove_binaryClz2 : AddsAbove binaryClz2 2 := by
  intro x p c hx hp hc
  have hmask : IsMask 0x2 1 2 := by decide
  have hle : isNonzero (~~~x &&& 0x2) ≤ 1 := by
    rw [isNonzero]
    split <;> omega
  rw [binaryClz2, xor_of_even hle hc, isNonzero]
  interval_cases p
  · have hclear : (~~~x).getLsbD 1 = true := by
      rw [BitVec.getLsbD_not, hx.above 1 Nat.one_pos]
      rfl
    rw [if_neg (and_mask_ne_zero hmask hclear le_rfl Nat.one_lt_two)]
  · have hzero : ~~~x &&& 0x2 = 0 := by
      rw [and_mask_eq_zero_iff hmask]
      intro i hlo hhi
      obtain rfl : i = 1 := by omega
      rw [BitVec.getLsbD_not, hx.set]
      rfl
    rw [if_pos hzero]

theorem addsAbove_clzHalf (hnext : AddsAbove next half) (hhalf_even : Even half)
    (hmask : IsMask mask half (2 * half)) :
    AddsAbove (clzHalf next half mask) (2 * half) := by
  intro x p c hx hp hc
  rw [clzHalf, isNonzero, isZero]
  by_cases hhalf : p < half
  · have hzero : x &&& mask = 0 :=
      (and_mask_eq_zero_iff hmask).mpr fun i hi _ => hx.above i (by omega)
    rw [if_pos hzero, if_pos hzero, Nat.mul_zero, Nat.mul_one]
    have hcount := hnext x p (c + half) hx hhalf (hc.add hhalf_even)
    rw [BitVec.ushiftRight_zero, hcount]
    omega
  · have hne := and_mask_ne_zero hmask hx.set (not_lt.mp hhalf) hp
    rw [if_neg hne, if_neg hne, Nat.mul_zero, Nat.mul_one, Nat.add_zero,
      hnext _ _ _ (hx.shift (not_lt.mp hhalf)) (by omega) hc]
    omega

theorem addsAbove_binaryClz32 : AddsAbove binaryClz32 32 :=
  addsAbove_clzHalf (addsAbove_clzHalf (addsAbove_clzHalf
    (addsAbove_clzHalf addsAbove_binaryClz2 (by decide) (by decide : IsMask 0xC 2 4))
    (by decide) (by decide : IsMask 0xF0 4 8)) (by decide) (by decide : IsMask 0xFF00 8 16))
    (by decide) (by decide : IsMask 0xFFFF0000 16 32)

theorem binaryClz64_eq (hx : IsHighest x p) (hp : p < 64) : binaryClz64 x = 63 - p := by
  have hmask : IsMask 0xFFFFFFFF00000000 32 64 := by decide
  have hadds := addsAbove_clzHalf addsAbove_binaryClz32 (by decide) hmask x p 0 hx hp
    (by decide)
  rwa [Nat.zero_add] at hadds

/-! ## Adding up fields -/

/-- The word has the given bytes, the lowest first. -/
structure HasBytes (x : BitVec 64) (L : List ℕ) : Prop where
  length : L.length = 8
  lt : ∀ a ∈ L, a < 2 ^ 8
  value : x.toNat = Nat.ofDigits (2 ^ 8) L

variable {L : List ℕ}

theorem exists_bytes (x : BitVec 64) : ∃ L, HasBytes x L := by
  obtain ⟨L, hlength, hlt, hvalue⟩ := exists_fields 8 (n := 8) x.isLt
  exact ⟨L, hlength, hlt, hvalue.symm⟩

/-- Counts of the pairs of bits in a byte. -/
def pairCounts (a : ℕ) : ℕ := a - ((a >>> 1) &&& 0x55)

/-- Counts of the halves of a byte, from those of the pairs. -/
def nibbleCounts (a : ℕ) : ℕ := (a &&& 0x33) + ((a >>> 2) &&& 0x33)

def byteCount (a : ℕ) : ℕ := (a + (a >>> 4)) &&& 0x0f

theorem pairCounts_lt : ∀ a < 2 ^ 8, (a >>> 1) &&& 0x55 ≤ a ∧ pairCounts a < 2 ^ 8 := by
  decide +kernel

theorem nibbleCounts_lt :
    ∀ a < 2 ^ 8, (a &&& 0x33) + ((a >>> 2) &&& 0x33) < 2 ^ 8 := by
  decide +kernel

theorem byteCount_eq : ∀ a < 2 ^ 8, byteCount (nibbleCounts (pairCounts a)) = bitCount 8 a := by
  decide +kernel

theorem nibbleCounts_pairCounts : ∀ a < 2 ^ 8,
    nibbleCounts (pairCounts a) % 2 ^ 4 ≤ 4 ∧
      nibbleCounts (pairCounts a) + (nibbleCounts (pairCounts a) >>> 4) + 2 ^ (8 - 4) * 4 < 2 ^ 8 := by
  decide +kernel

theorem HasBytes.map {x : BitVec 64} {f : ℕ → ℕ} (hx : HasBytes x L) {y : BitVec 64}
    (hf : ∀ a ∈ L, f a < 2 ^ 8) (hy : y.toNat = Nat.ofDigits (2 ^ 8) (L.map f)) :
    HasBytes y (L.map f) := by
  refine ⟨by rw [List.length_map, hx.length], ?_, hy⟩
  intro b hb
  obtain ⟨a, ha, rfl⟩ := List.mem_map.mp hb
  exact hf a ha

theorem HasBytes.pairs (hx : HasBytes x L) :
    HasBytes (x - ((x >>> 1) &&& 0x5555555555555555#64)) (L.map pairCounts) := by
  apply hx.map fun a ha => (pairCounts_lt a (hx.lt a ha)).2
  have hshift : ((x >>> 1) &&& 0x5555555555555555#64).toNat =
      Nat.ofDigits (2 ^ 8) (L.map fun a => (a >>> 1) &&& 0x55) := by
    rw [← shiftRight_and_replicate (j := 1) hx.lt (by decide), hx.length, ← hx.value]
    rfl
  obtain ⟨hle, hsub⟩ :=
    sub_map (k := 8) (f := id) (L := L) fun a ha => (pairCounts_lt a (hx.lt a ha)).1
  rw [List.map_id, ← hshift, ← hx.value] at hle hsub
  rw [BitVec.toNat_sub_of_le hle, hsub]
  rfl

theorem HasBytes.nibbles (hx : HasBytes x L) :
    HasBytes ((x &&& 0x3333333333333333#64) + ((x >>> 2) &&& 0x3333333333333333#64))
      (L.map nibbleCounts) := by
  have hlt : ∀ a ∈ L, nibbleCounts a < 2 ^ 8 := fun a ha => nibbleCounts_lt a (hx.lt a ha)
  apply hx.map hlt
  have hlow : (x &&& 0x3333333333333333#64).toNat =
      Nat.ofDigits (2 ^ 8) (L.map fun a => a &&& 0x33) := by
    rw [← and_replicate hx.lt (by decide), hx.length, ← hx.value]
    rfl
  have hhigh : ((x >>> 2) &&& 0x3333333333333333#64).toNat =
      Nat.ofDigits (2 ^ 8) (L.map fun a => (a >>> 2) &&& 0x33) := by
    rw [← shiftRight_and_replicate (j := 2) hx.lt (by decide), hx.length, ← hx.value]
    rfl
  have hsum := (add_map (k := 8) (L := L) (fun a => a &&& 0x33) fun a => (a >>> 2) &&& 0x33)
  have hword : Nat.ofDigits (2 ^ 8) (L.map nibbleCounts) < 2 ^ 64 := by
    have hbound := Nat.ofDigits_lt_base_pow_length (b := 2 ^ 8) (l := L.map nibbleCounts)
      (by decide) (by simpa using hlt)
    rwa [List.length_map, hx.length] at hbound
  rw [BitVec.toNat_add, hlow, hhigh, hsum]
  exact Nat.mod_eq_of_lt hword

theorem HasBytes.bytes {m : ℕ} (hx : HasBytes x L)
    (hL : ∀ a ∈ L, a % 2 ^ 4 ≤ m ∧ a + (a >>> 4) + 2 ^ (8 - 4) * m < 2 ^ 8) :
    HasBytes ((x + (x >>> 4)) &&& 0x0f0f0f0f0f0f0f0f#64) (L.map byteCount) := by
  apply hx.map fun a _ => Nat.and_lt_two_pow _ (by decide)
  have hsum := add_shiftRight_and_replicate (k := 8) (j := 4) (c := 0x0f) (L := L)
    (by decide) (by decide) hL
  rw [hx.length, ← hx.value] at hsum
  -- The sum may only wrap around above the mask.
  have hwrap := add_and_of_lt (k := 64) (c := 0x0f0f0f0f0f0f0f0f) (by decide)
    ((x.toNat + (x.toNat >>> 4)) % 2 ^ 64) ((x.toNat + (x.toNat >>> 4)) / 2 ^ 64)
  rw [Nat.mod_add_div] at hwrap
  exact hwrap.symm.trans hsum

/-- A product with the word of ones has the sum of the bytes at the top. -/
theorem HasBytes.top (hx : HasBytes x L) (hsum : L.sum < 2 ^ 8) :
    fallbackPopc8 x = L.sum := by
  rw [fallbackPopc8, BitVec.toNat_ushiftRight, BitVec.toNat_mul, hx.value,
    Nat.shiftRight_eq_div_pow]
  exact top_field hx.length hsum

/-- The fallback counts the set bits. -/
theorem fallbackPopc64_eq (x : BitVec 64) : fallbackPopc64 x = bitCount 64 x.toNat := by
  obtain ⟨L, hL⟩ := exists_bytes x
  have hbytes := hL.pairs.nibbles.bytes (m := 4) (by
    intro a ha
    rw [List.map_map] at ha
    obtain ⟨b, hb, rfl⟩ := List.mem_map.mp ha
    exact nibbleCounts_pairCounts b (hL.lt b hb))
  have hcounts : ((L.map pairCounts).map nibbleCounts).map byteCount = L.map (bitCount 8) := by
    rw [List.map_map, List.map_map]
    exact List.map_congr_left fun a ha => byteCount_eq a (hL.lt a ha)
  have hbits := bitCount_ofDigits hL.lt
  rw [hL.length, ← hL.value] at hbits
  rw [hcounts] at hbytes
  rw [hbits]
  apply hbytes.top
  rw [← hbits]
  exact lt_of_le_of_lt (bitCount_le 64 x.toNat) (by decide)

end Libhipcxx.Bit
