import Mathlib.Algebra.BigOperators.Intervals
import Mathlib.Algebra.Order.BigOperators.Group.Finset
import Mathlib.Data.Nat.Digits.Lemmas

/-!
# Fields of a word

A word is a list of fields of the same width, the lowest first: the digits in
base `2 ^ k`.  Masks that repeat one field, shifts inside the fields, sums and
differences without carry act on every field alone.  The set bits of a word are
those of its fields.
-/

namespace Libhipcxx.Fields

variable {k j a b c d : ℕ} {L : List ℕ}

/-! ## One field and the rest -/

theorem testBit_add (ha : a < 2 ^ k) (i : ℕ) :
    (a + 2 ^ k * b).testBit i = if i < k then a.testBit i else b.testBit (i - k) := by
  rw [Nat.add_comm, Nat.testBit_two_pow_mul_add b ha]

theorem and_add (ha : a < 2 ^ k) (hc : c < 2 ^ k) :
    (a + 2 ^ k * b) &&& (c + 2 ^ k * d) = (a &&& c) + 2 ^ k * (b &&& d) := by
  have hand : a &&& c < 2 ^ k := Nat.and_lt_two_pow a hc
  apply Nat.eq_of_testBit_eq
  intro i
  rw [Nat.testBit_and, testBit_add ha, testBit_add hc, testBit_add hand]
  split
  · rw [Nat.testBit_and]
  · rw [Nat.testBit_and]

/-- The bits that a shift takes from the next field are masked. -/
theorem shiftRight_and_add (ha : a < 2 ^ k) (hc : c < 2 ^ (k - j)) :
    ((a + 2 ^ k * b) >>> j) &&& (c + 2 ^ k * d) =
      ((a >>> j) &&& c) + 2 ^ k * ((b >>> j) &&& d) := by
  have hc_lt : c < 2 ^ k := lt_of_lt_of_le hc (Nat.pow_le_pow_right (by decide) (Nat.sub_le k j))
  have hand : (a >>> j) &&& c < 2 ^ k := Nat.and_lt_two_pow _ hc_lt
  apply Nat.eq_of_testBit_eq
  intro i
  rw [Nat.testBit_and, Nat.testBit_shiftRight, testBit_add ha, testBit_add hc_lt,
    testBit_add hand]
  by_cases hi : i < k
  · rw [if_pos hi, if_pos hi, Nat.testBit_and, Nat.testBit_shiftRight]
    by_cases hnext : j + i < k
    · rw [if_pos hnext]
    · have hmasked : c.testBit i = false :=
        Nat.testBit_lt_two_pow (lt_of_lt_of_le hc (Nat.pow_le_pow_right (by decide) (by omega)))
      rw [hmasked, Bool.and_false, Bool.and_false]
  · rw [if_neg hi, if_neg hi, if_neg (by omega), Nat.testBit_and, Nat.testBit_shiftRight,
      Nat.add_sub_assoc (not_lt.mp hi)]

/-! ## All fields -/

/-- A word that is long enough for `n` fields has them. -/
theorem exists_fields (k : ℕ) {n x : ℕ} (h : x < 2 ^ (k * n)) :
    ∃ L, L.length = n ∧ (∀ a ∈ L, a < 2 ^ k) ∧ Nat.ofDigits (2 ^ k) L = x := by
  induction n generalizing x with
  | zero =>
    rw [Nat.mul_zero, Nat.pow_zero, Nat.lt_one_iff] at h
    exact ⟨[], rfl, nofun, h.symm⟩
  | succ n ih =>
    rw [Nat.mul_succ, Nat.add_comm, Nat.pow_add] at h
    obtain ⟨L, hlength, hfields, hrest⟩ := ih (Nat.div_lt_of_lt_mul h)
    refine ⟨x % 2 ^ k :: L, by rw [List.length_cons, hlength], ?_, ?_⟩
    · intro a ha
      rcases List.mem_cons.mp ha with rfl | hmem
      · exact Nat.mod_lt x (Nat.two_pow_pos k)
      · exact hfields a hmem
    · rw [Nat.ofDigits_cons, hrest]
      exact Nat.mod_add_div x (2 ^ k)

theorem and_replicate (hL : ∀ a ∈ L, a < 2 ^ k) (hc : c < 2 ^ k) :
    Nat.ofDigits (2 ^ k) L &&& Nat.ofDigits (2 ^ k) (List.replicate L.length c) =
      Nat.ofDigits (2 ^ k) (L.map fun a => a &&& c) := by
  induction L with
  | nil =>
    rw [Nat.ofDigits_nil, Nat.zero_and]
    rfl
  | cons a L ih =>
    rw [List.length_cons, List.replicate_succ, List.map_cons, Nat.ofDigits_cons,
      Nat.ofDigits_cons, Nat.ofDigits_cons, and_add (hL a List.mem_cons_self) hc,
      ih fun b hb => hL b (List.mem_cons_of_mem a hb)]

theorem shiftRight_and_replicate (hL : ∀ a ∈ L, a < 2 ^ k) (hc : c < 2 ^ (k - j)) :
    (Nat.ofDigits (2 ^ k) L >>> j) &&& Nat.ofDigits (2 ^ k) (List.replicate L.length c) =
      Nat.ofDigits (2 ^ k) (L.map fun a => (a >>> j) &&& c) := by
  induction L with
  | nil =>
    rw [Nat.ofDigits_nil, Nat.zero_shiftRight, Nat.zero_and]
    rfl
  | cons a L ih =>
    rw [List.length_cons, List.replicate_succ, List.map_cons, Nat.ofDigits_cons,
      Nat.ofDigits_cons, Nat.ofDigits_cons, shiftRight_and_add (hL a List.mem_cons_self) hc,
      ih fun b hb => hL b (List.mem_cons_of_mem a hb)]

theorem add_map (f g : ℕ → ℕ) :
    Nat.ofDigits (2 ^ k) (L.map f) + Nat.ofDigits (2 ^ k) (L.map g) =
      Nat.ofDigits (2 ^ k) (L.map fun a => f a + g a) := by
  induction L with
  | nil => rfl
  | cons a L ih =>
    simp only [List.map_cons, Nat.ofDigits_cons, ← ih]
    ring

/-- Differences without borrow. -/
theorem sub_map {f g : ℕ → ℕ} (h : ∀ a ∈ L, g a ≤ f a) :
    Nat.ofDigits (2 ^ k) (L.map g) ≤ Nat.ofDigits (2 ^ k) (L.map f) ∧
      Nat.ofDigits (2 ^ k) (L.map f) - Nat.ofDigits (2 ^ k) (L.map g) =
        Nat.ofDigits (2 ^ k) (L.map fun a => f a - g a) := by
  have hsum : Nat.ofDigits (2 ^ k) (L.map fun a => f a - g a) +
      Nat.ofDigits (2 ^ k) (L.map g) = Nat.ofDigits (2 ^ k) (L.map f) := by
    rw [add_map]
    congr 1
    exact List.map_congr_left fun a ha => Nat.sub_add_cancel (h a ha)
  omega

/-- A mask takes no notice of what is above it. -/
theorem add_and_of_lt (hc : c < 2 ^ k) (a b : ℕ) : (a + 2 ^ k * b) &&& c = a &&& c := by
  have hlow (x : ℕ) : x &&& c = (x % 2 ^ k) &&& (c % 2 ^ k) := by
    rw [← Nat.and_mod_two_pow, Nat.mod_eq_of_lt (Nat.and_lt_two_pow x hc)]
  rw [hlow, Nat.add_mul_mod_self_left, ← hlow]

/-- What a shift takes from the lowest field of the rest. -/
theorem add_shiftRight (hj : j ≤ k) (a b : ℕ) :
    (a + 2 ^ k * b) >>> j = (a >>> j) + 2 ^ (k - j) * (b % 2 ^ j) + 2 ^ k * (b >>> j) := by
  have hpow : 2 ^ k = 2 ^ j * 2 ^ (k - j) := by rw [← Nat.pow_add, Nat.add_sub_cancel' hj]
  have hsplit : 2 ^ (k - j) * b = 2 ^ (k - j) * (b % 2 ^ j) + 2 ^ k * (b / 2 ^ j) := by
    rw [hpow, Nat.mul_comm (2 ^ j), Nat.mul_assoc, ← Nat.mul_add, Nat.mod_add_div]
  rw [Nat.shiftRight_eq_div_pow, Nat.shiftRight_eq_div_pow, Nat.shiftRight_eq_div_pow, hpow,
    Nat.mul_assoc, Nat.add_mul_div_left _ _ (Nat.two_pow_pos j), hsplit, ← Nat.add_assoc, hpow]

theorem ofDigits_mod_le {m : ℕ} (hj : j ≤ k) (hL : ∀ a ∈ L, a % 2 ^ j ≤ m) :
    Nat.ofDigits (2 ^ k) L % 2 ^ j ≤ m := by
  cases L with
  | nil => exact (Nat.zero_mod _).trans_le (Nat.zero_le m)
  | cons a L =>
    have hpow : 2 ^ k = 2 ^ j * 2 ^ (k - j) := by rw [← Nat.pow_add, Nat.add_sub_cancel' hj]
    rw [Nat.ofDigits_cons, hpow, Nat.mul_assoc, Nat.add_mul_mod_self_left]
    exact hL a List.mem_cons_self

/-- The parts of a field are added up in its lower part, where nothing is
carried out of the field. -/
theorem add_shiftRight_and_replicate {m : ℕ} (hj : j ≤ k) (hc : c < 2 ^ (k - j))
    (hL : ∀ a ∈ L, a % 2 ^ j ≤ m ∧ a + (a >>> j) + 2 ^ (k - j) * m < 2 ^ k) :
    (Nat.ofDigits (2 ^ k) L + (Nat.ofDigits (2 ^ k) L >>> j)) &&&
        Nat.ofDigits (2 ^ k) (List.replicate L.length c) =
      Nat.ofDigits (2 ^ k) (L.map fun a => (a + (a >>> j)) &&& c) := by
  induction L with
  | nil =>
    rw [Nat.ofDigits_nil, Nat.zero_shiftRight, Nat.add_zero, Nat.zero_and]
    rfl
  | cons a L ih =>
    have htail : ∀ b ∈ L, b % 2 ^ j ≤ m ∧ b + (b >>> j) + 2 ^ (k - j) * m < 2 ^ k :=
      fun b hb => hL b (List.mem_cons_of_mem a hb)
    have hrest : Nat.ofDigits (2 ^ k) L % 2 ^ j ≤ m :=
      ofDigits_mod_le hj fun b hb => (htail b hb).1
    have hshifted := Nat.mul_le_mul_left (2 ^ (k - j)) hrest
    have hlow : a + (a >>> j) + 2 ^ (k - j) * (Nat.ofDigits (2 ^ k) L % 2 ^ j) < 2 ^ k :=
      lt_of_le_of_lt (Nat.add_le_add_left hshifted _) (hL a List.mem_cons_self).2
    have hc_lt : c < 2 ^ k :=
      lt_of_lt_of_le hc (Nat.pow_le_pow_right (by decide) (Nat.sub_le k j))
    have hsum : Nat.ofDigits (2 ^ k) (a :: L) + (Nat.ofDigits (2 ^ k) (a :: L) >>> j) =
        (a + (a >>> j) + 2 ^ (k - j) * (Nat.ofDigits (2 ^ k) L % 2 ^ j)) +
          2 ^ k * (Nat.ofDigits (2 ^ k) L + (Nat.ofDigits (2 ^ k) L >>> j)) := by
      rw [Nat.ofDigits_cons, add_shiftRight hj]
      ring
    rw [hsum, List.length_cons, List.replicate_succ, Nat.ofDigits_cons, and_add hlow hc_lt,
      add_and_of_lt hc, ih htail, List.map_cons, Nat.ofDigits_cons]

/-! ## Sums of all fields -/

/-- The word whose fields are ones. -/
def ones (b n : ℕ) : ℕ := Nat.ofDigits b (List.replicate n 1)

theorem ones_succ (b n : ℕ) : ones b (n + 1) = 1 + b * ones b n := by
  rw [ones, List.replicate_succ, Nat.ofDigits_cons, ones]

theorem ones_succ_top (b n : ℕ) : ones b (n + 1) = ones b n + b ^ n := by
  induction n with
  | zero => rfl
  | succ n ih =>
    calc ones b (n + 1 + 1) = 1 + b * (ones b n + b ^ n) := by rw [ones_succ, ih]
      _ = 1 + b * ones b n + b ^ (n + 1) := by ring
      _ = ones b (n + 1) + b ^ (n + 1) := by rw [← ones_succ]

theorem mul_ones_lt {b s : ℕ} (hs : s < b) (n : ℕ) : s * ones b n < b ^ n := by
  induction n with
  | zero => exact Nat.one_pos
  | succ n ih =>
    calc s * ones b (n + 1) = s + b * (s * ones b n) := by
          rw [ones_succ]
          ring
      _ < b + b * (s * ones b n) := Nat.add_lt_add_right hs _
      _ = b * (s * ones b n + 1) := by ring
      _ ≤ b * b ^ n := Nat.mul_le_mul_left b ih
      _ = b ^ (n + 1) := (pow_succ' b n).symm

/-- A product with the word of ones: the column of the sum of all fields, and
the columns below and above it. -/
theorem exists_columns (b : ℕ) {n : ℕ} (hlength : L.length = n + 1) :
    ∃ low high, Nat.ofDigits b L * ones b (n + 1) =
        low + b ^ n * L.sum + b ^ (n + 1) * high ∧ low ≤ L.sum * ones b n := by
  induction L generalizing n with
  | nil => cases hlength
  | cons a L ih =>
    cases n with
    | zero =>
      obtain rfl : L = [] := List.length_eq_zero_iff.mp (Nat.succ.inj hlength)
      exact ⟨0, 0, by simp [ones], Nat.zero_le _⟩
    | succ n =>
      obtain ⟨low, high, hproduct, hlow⟩ := ih (Nat.succ.inj hlength)
      refine ⟨a * ones b (n + 1) + b * low, high + Nat.ofDigits b L, ?_, ?_⟩
      · rw [ones_succ_top b (n + 1), Nat.ofDigits_cons, List.sum_cons]
        calc (a + b * Nat.ofDigits b L) * (ones b (n + 1) + b ^ (n + 1))
            = a * ones b (n + 1) + b * (Nat.ofDigits b L * ones b (n + 1)) +
                (a + b * Nat.ofDigits b L) * b ^ (n + 1) := by ring
          _ = _ := by
              rw [hproduct]
              ring
      · rw [List.sum_cons, Nat.add_mul]
        apply Nat.add_le_add_left
        calc b * low ≤ b * (L.sum * ones b n) := Nat.mul_le_mul_left b hlow
          _ = L.sum * (b * ones b n) := by ring
          _ ≤ L.sum * ones b (n + 1) := by
              rw [ones_succ]
              exact Nat.mul_le_mul_left _ (Nat.le_add_left _ 1)

/-- The highest field of the product is the sum, if that is a field. -/
theorem top_field {b n : ℕ} (hlength : L.length = n + 1) (hsum : L.sum < b) :
    Nat.ofDigits b L * ones b (n + 1) % b ^ (n + 1) / b ^ n = L.sum := by
  obtain ⟨low, high, hproduct, hlow⟩ := exists_columns b hlength
  have hlow_lt : low < b ^ n := lt_of_le_of_lt hlow (mul_ones_lt hsum n)
  have hlt : low + b ^ n * L.sum < b ^ (n + 1) :=
    calc low + b ^ n * L.sum < b ^ n + b ^ n * L.sum := Nat.add_lt_add_right hlow_lt _
      _ = b ^ n * (L.sum + 1) := by ring
      _ ≤ b ^ n * b := Nat.mul_le_mul_left _ hsum
      _ = b ^ (n + 1) := (pow_succ b n).symm
  rw [hproduct, Nat.add_mul_mod_self_left, Nat.mod_eq_of_lt hlt,
    Nat.add_mul_div_left _ _ (Nat.zero_le low |>.trans_lt hlow_lt), Nat.div_eq_of_lt hlow_lt,
    Nat.zero_add]

/-! ## Set bits -/

/-- The number of set bits among the lowest `w`. -/
def bitCount (w n : ℕ) : ℕ := ∑ i ∈ Finset.range w, (n.testBit i).toNat

theorem bitCount_le (w n : ℕ) : bitCount w n ≤ w := by
  have hle := Finset.sum_le_card_nsmul (Finset.range w) (fun i => (n.testBit i).toNat) 1
    fun i _ => Bool.toNat_le _
  rwa [Finset.card_range, nsmul_eq_mul, mul_one] at hle

/-- The bits of the rest are those of the shifted number. -/
theorem bitCount_split (k w n : ℕ) :
    bitCount (k + w) n = bitCount k n + bitCount w (n >>> k) := by
  rw [bitCount, Finset.sum_range_add, bitCount, bitCount]
  congr 1
  apply Finset.sum_congr rfl
  intro i _
  rw [Nat.testBit_shiftRight]

theorem bitCount_zero (w : ℕ) : bitCount w 0 = 0 := by
  apply Finset.sum_eq_zero
  intro i _
  rw [Nat.zero_testBit]
  rfl

/-- No bits are above the width of a number. -/
theorem bitCount_of_lt {v w n : ℕ} (hn : n < 2 ^ w) (hw : w ≤ v) :
    bitCount v n = bitCount w n := by
  obtain ⟨d, rfl⟩ := Nat.exists_eq_add_of_le hw
  rw [bitCount_split, Nat.shiftRight_eq_div_pow, Nat.div_eq_of_lt hn, bitCount_zero,
    Nat.add_zero]

theorem bitCount_add (ha : a < 2 ^ k) (w b : ℕ) :
    bitCount (k + w) (a + 2 ^ k * b) = bitCount k a + bitCount w b := by
  rw [bitCount, Finset.sum_range_add, bitCount, bitCount]
  congr 1
  · apply Finset.sum_congr rfl
    intro i hi
    rw [testBit_add ha, if_pos (Finset.mem_range.mp hi)]
  · apply Finset.sum_congr rfl
    intro i _
    rw [testBit_add ha, if_neg (by omega), Nat.add_sub_cancel_left]

theorem bitCount_ofDigits (hL : ∀ a ∈ L, a < 2 ^ k) :
    bitCount (k * L.length) (Nat.ofDigits (2 ^ k) L) = (L.map (bitCount k)).sum := by
  induction L with
  | nil => rfl
  | cons a L ih =>
    rw [List.length_cons, Nat.mul_succ, Nat.add_comm, Nat.ofDigits_cons,
      bitCount_add (hL a List.mem_cons_self), List.map_cons, List.sum_cons,
      ih fun b hb => hL b (List.mem_cons_of_mem a hb)]

end Libhipcxx.Fields
