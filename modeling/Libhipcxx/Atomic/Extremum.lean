import Libhipcxx.Atomic.WrapAround
import Mathlib.Tactic.Ring

/-!
# Fetch-max and fetch-min on the proxy

The comparison is made on the whole proxy word, so its outcome depends on the
bits that earlier arithmetic carried past the width of `T`.  The proxy and the
value it stands for are compared here as integers.  A proxy inside the range
of `T` is that value; a proxy above the range beats every operand, and one
below the range loses to every operand.
-/

namespace Libhipcxx.Atomic

open SmallType Replies

namespace SmallType

/-- The integer that a proxy of type `int32_t` or `uint32_t` holds. -/
def wordInt (T : SmallType) (word : Word) : ℤ :=
  if T.isSigned then word.toInt else word.toNat

/-- The integer that a value of `T` denotes. -/
def valueInt (T : SmallType) (x : BitVec T.bits) : ℤ :=
  if T.isSigned then x.toInt else x.toNat

/-- `numeric_limits<_Tp>::min()`. -/
def minInt (T : SmallType) : ℤ :=
  if T.isSigned then -2 ^ (T.bits - 1) else 0

/-- `numeric_limits<_Tp>::max()`. -/
def maxInt (T : SmallType) : ℤ :=
  if T.isSigned then 2 ^ (T.bits - 1) - 1 else 2 ^ T.bits - 1

variable {T : SmallType}

theorem isSigned_iff : T.isSigned = true ↔ T.kind = .signedInt := by
  simp [isSigned]

theorem minInt_le_valueInt (x : BitVec T.bits) : T.minInt ≤ T.valueInt x := by
  unfold minInt valueInt
  split
  · exact BitVec.le_toInt x
  · exact Int.natCast_nonneg _

theorem valueInt_le_maxInt (x : BitVec T.bits) : T.valueInt x ≤ T.maxInt := by
  unfold maxInt valueInt
  split
  · exact Int.le_sub_one_of_lt BitVec.toInt_lt
  · have hlt : ((x.toNat : ℕ) : ℤ) < ((2 ^ T.bits : ℕ) : ℤ) :=
      Int.ofNat_lt.mpr x.isLt
    push_cast at hlt
    omega

theorem valueInt_injective {x y : BitVec T.bits}
    (h : T.valueInt x = T.valueInt y) : x = y := by
  unfold valueInt at h
  split at h
  · exact BitVec.toInt_inj.mp h
  · exact BitVec.eq_of_toNat_eq (by exact_mod_cast h)

theorem wordInt_cxxSmallTo32 (v : BitVec T.bits) :
    T.wordInt (T.cxxSmallTo32 v) = T.valueInt v := by
  have hbits := bits_le_word T
  unfold wordInt valueInt
  split
  · rename_i hsigned
    rw [cxxSmallTo32_of_signed (isSigned_iff.mp hsigned),
      BitVec.toInt_signExtend_of_le hbits]
  · rename_i hsigned
    rw [cxxSmallTo32_of_not_signed (fun h => hsigned (isSigned_iff.mpr h)),
      BitVec.toNat_setWidth_of_le hbits]

/-- A proxy inside the range of `T` is the value it stands for. -/
theorem wordInt_eq_of_range {word : Word}
    (hmin : T.minInt ≤ T.wordInt word) (hmax : T.wordInt word ≤ T.maxInt) :
    T.wordInt word = T.valueInt (word.setWidth T.bits) := by
  have hpos := T.bits_pos
  unfold minInt wordInt at hmin
  unfold maxInt wordInt at hmax
  unfold wordInt valueInt
  split
  · rename_i hsigned
    rw [if_pos hsigned, if_pos hsigned] at hmin hmax
    have hdvd : 2 ^ T.bits ∣ 2 ^ 32 := Nat.pow_dvd_pow 2 (bits_le_word T)
    have htrunc : (word.setWidth T.bits).toInt =
        Int.bmod word.toInt (2 ^ T.bits) := by
      rw [BitVec.toInt_setWidth, BitVec.toInt_eq_toNat_bmod,
        Int.bmod_bmod_of_dvd hdvd]
    have hpow : (2 : ℤ) ^ T.bits = 2 * 2 ^ (T.bits - 1) := by
      rw [← pow_succ']
      congr 1
      omega
    have hcast : ((2 ^ T.bits : ℕ) : ℤ) = 2 ^ T.bits := by push_cast; rfl
    rw [htrunc, Int.bmod_eq_of_le_mul_two]
    · rw [hcast, hpow]
      omega
    · rw [hcast, hpow]
      omega
  · rename_i hsigned
    rw [if_neg hsigned, if_neg hsigned] at hmax
    have hlt : word.toNat < 2 ^ T.bits := by
      have hle : ((word.toNat : ℕ) : ℤ) ≤ 2 ^ T.bits - 1 := hmax
      have hcast : ((2 ^ T.bits : ℕ) : ℤ) = 2 ^ T.bits := by push_cast; rfl
      omega
    rw [BitVec.toNat_setWidth, Nat.mod_eq_of_lt hlt]

theorem lessThan_iff (a b : Word) :
    Heterogeneous.lessThan T.isSigned a b = true ↔
      T.wordInt a < T.wordInt b := by
  unfold Heterogeneous.lessThan wordInt
  split
  · exact BitVec.slt_iff_toInt_lt
  · rw [BitVec.ult_iff_lt, BitVec.lt_def]
    exact Int.ofNat_lt.symm

theorem valueLt_iff (x y : BitVec T.bits) :
    Op.valueLt T x y = true ↔ T.valueInt x < T.valueInt y := by
  unfold Op.valueLt valueInt
  split
  · exact BitVec.slt_iff_toInt_lt
  · rw [BitVec.ult_iff_lt, BitVec.lt_def]
    exact Int.ofNat_lt.symm

/-- The proxy is in the range of `T`, or it is above the range and the operand
does not exceed the value, or it is below the range and the value does not
exceed the operand. -/
def ProxyInOrder (T : SmallType) (word : Word) (v : BitVec T.bits) : Prop :=
  (T.maxInt < T.wordInt word →
    T.valueInt v ≤ T.valueInt (T.cxxSmallFrom32 word)) ∧
  (T.wordInt word < T.minInt →
    T.valueInt (T.cxxSmallFrom32 word) ≤ T.valueInt v)

instance (word : Word) (v : BitVec T.bits) :
    Decidable (T.ProxyInOrder word v) := by
  unfold ProxyInOrder
  infer_instance

end SmallType

variable {T : SmallType}

/-- With fuel enough, fetch-max returns the current value and leaves its
maximum with the operand. -/
def FetchMaxMeets (T : SmallType) (target : Target) (word : Word)
    (v : BitVec T.bits) : Prop :=
  ∃ enough, ∀ fuel ≥ enough, ∃ word',
    Small.cxxAtomicFetchMax T target fuel v word =
      some (Small.cxxAtomicLoad T word, word') ∧
    T.valueInt (Small.cxxAtomicLoad T word') =
      max (T.valueInt (Small.cxxAtomicLoad T word)) (T.valueInt v)

/-- With fuel enough, fetch-min returns the current value and leaves its
minimum with the operand. -/
def FetchMinMeets (T : SmallType) (target : Target) (word : Word)
    (v : BitVec T.bits) : Prop :=
  ∃ enough, ∀ fuel ≥ enough, ∃ word',
    Small.cxxAtomicFetchMin T target fuel v word =
      some (Small.cxxAtomicLoad T word, word') ∧
    T.valueInt (Small.cxxAtomicLoad T word') =
      min (T.valueInt (Small.cxxAtomicLoad T word)) (T.valueInt v)

/-- The common form of both operations: what they return and leave is decided
by one comparison on the proxy. -/
theorem fetchExtremum_load (keep : Word → Word → Bool) (hT : T.HasFetch)
    (target : Target) {fuel : ℕ} (hfuel : 0 < fuel) (v : BitVec T.bits)
    (word : Word) :
    ∃ word',
      (Heterogeneous.fetchExtremum keep target fuel (T.cxxSmallTo32 v)
          word).map (fun r => (T.cxxSmallFrom32 r.1, r.2)) =
        some (T.cxxSmallFrom32 word, word') ∧
      T.cxxSmallFrom32 word' =
        if keep word (T.cxxSmallTo32 v) then T.cxxSmallFrom32 word else v := by
  refine ⟨_, by rw [Heterogeneous.fetchExtremum_eq keep target hfuel]; rfl, ?_⟩
  split
  · rfl
  · rw [cxxSmallFrom32_of_hasFetch hT, setWidth_cxxSmallTo32]

theorem fetchMax_load (hT : T.HasFetch) (target : Target) {fuel : ℕ}
    (hfuel : 0 < fuel) (v : BitVec T.bits) (word : Word) :
    ∃ word',
      Small.cxxAtomicFetchMax T target fuel v word =
        some (T.cxxSmallFrom32 word, word') ∧
      T.cxxSmallFrom32 word' =
        if T.valueInt v < T.wordInt word then T.cxxSmallFrom32 word else v := by
  obtain ⟨word', hrun, hload⟩ :=
    fetchExtremum_load
      (fun expected val => Heterogeneous.lessThan T.isSigned val expected)
      hT target hfuel v word
  refine ⟨word', hrun, hload.trans ?_⟩
  simp only [lessThan_iff, wordInt_cxxSmallTo32]

theorem fetchMin_load (hT : T.HasFetch) (target : Target) {fuel : ℕ}
    (hfuel : 0 < fuel) (v : BitVec T.bits) (word : Word) :
    ∃ word',
      Small.cxxAtomicFetchMin T target fuel v word =
        some (T.cxxSmallFrom32 word, word') ∧
      T.cxxSmallFrom32 word' =
        if T.wordInt word < T.valueInt v then T.cxxSmallFrom32 word else v := by
  obtain ⟨word', hrun, hload⟩ :=
    fetchExtremum_load
      (fun expected val => Heterogeneous.lessThan T.isSigned expected val)
      hT target hfuel v word
  refine ⟨word', hrun, hload.trans ?_⟩
  simp only [lessThan_iff, wordInt_cxxSmallTo32]

/-- A proxy is below the range of `T`, above it, or equal to its value. -/
theorem wordInt_cases (hT : T.HasFetch) (word : Word) :
    T.wordInt word < T.minInt ∨ T.maxInt < T.wordInt word ∨
      T.wordInt word = T.valueInt (T.cxxSmallFrom32 word) := by
  rcases lt_or_ge (T.wordInt word) T.minInt with hlow | hlow
  · exact Or.inl hlow
  · rcases lt_or_ge T.maxInt (T.wordInt word) with hhigh | hhigh
    · exact Or.inr (Or.inl hhigh)
    · rw [cxxSmallFrom32_of_hasFetch hT]
      exact Or.inr (Or.inr (wordInt_eq_of_range hlow hhigh))

/-- The comparison on the proxy picks the greater value exactly when the
proxy is in order for the operand. -/
theorem proxyInOrder_iff_max (hT : T.HasFetch) (word : Word)
    (v : BitVec T.bits) :
    T.valueInt
        (if T.valueInt v < T.wordInt word then T.cxxSmallFrom32 word else v) =
      max (T.valueInt (T.cxxSmallFrom32 word)) (T.valueInt v) ↔
    T.ProxyInOrder word v := by
  have hvmin := minInt_le_valueInt v
  have hvmax := valueInt_le_maxInt v
  have hxmin := minInt_le_valueInt (T.cxxSmallFrom32 word)
  have hxmax := valueInt_le_maxInt (T.cxxSmallFrom32 word)
  have hcases := wordInt_cases hT word
  unfold ProxyInOrder
  split <;> omega

theorem proxyInOrder_iff_min (hT : T.HasFetch) (word : Word)
    (v : BitVec T.bits) :
    T.valueInt
        (if T.wordInt word < T.valueInt v then T.cxxSmallFrom32 word else v) =
      min (T.valueInt (T.cxxSmallFrom32 word)) (T.valueInt v) ↔
    T.ProxyInOrder word v := by
  have hvmin := minInt_le_valueInt v
  have hvmax := valueInt_le_maxInt v
  have hxmin := minInt_le_valueInt (T.cxxSmallFrom32 word)
  have hxmax := valueInt_le_maxInt (T.cxxSmallFrom32 word)
  have hcases := wordInt_cases hT word
  unfold ProxyInOrder
  split <;> omega

theorem fetchMaxMeets_iff (hT : T.HasFetch) (target : Target) (word : Word)
    (v : BitVec T.bits) :
    FetchMaxMeets T target word v ↔ T.ProxyInOrder word v := by
  rw [← proxyInOrder_iff_max hT word v]
  constructor
  · rintro ⟨enough, h⟩
    obtain ⟨word₁, hrun₁, hmax⟩ := h (enough + 1) (Nat.le_succ enough)
    obtain ⟨word₂, hrun₂, hload⟩ :=
      fetchMax_load hT target (Nat.succ_pos enough) v word
    have hword : word₁ = word₂ := by
      have hpair := Option.some.inj (hrun₁.symm.trans hrun₂)
      exact congrArg Prod.snd hpair
    rw [hword, Small.cxxAtomicLoad, hload] at hmax
    exact hmax
  · intro h
    refine ⟨1, fun fuel hfuel => ?_⟩
    obtain ⟨word', hrun, hload⟩ := fetchMax_load hT target hfuel v word
    exact ⟨word', hrun, by rw [Small.cxxAtomicLoad, hload, h]; rfl⟩

theorem fetchMinMeets_iff (hT : T.HasFetch) (target : Target) (word : Word)
    (v : BitVec T.bits) :
    FetchMinMeets T target word v ↔ T.ProxyInOrder word v := by
  rw [← proxyInOrder_iff_min hT word v]
  constructor
  · rintro ⟨enough, h⟩
    obtain ⟨word₁, hrun₁, hmin⟩ := h (enough + 1) (Nat.le_succ enough)
    obtain ⟨word₂, hrun₂, hload⟩ :=
      fetchMin_load hT target (Nat.succ_pos enough) v word
    have hword : word₁ = word₂ := by
      have hpair := Option.some.inj (hrun₁.symm.trans hrun₂)
      exact congrArg Prod.snd hpair
    rw [hword, Small.cxxAtomicLoad, hload] at hmin
    exact hmin
  · intro h
    refine ⟨1, fun fuel hfuel => ?_⟩
    obtain ⟨word', hrun, hload⟩ := fetchMin_load hT target hfuel v word
    exact ⟨word', hrun, by rw [Small.cxxAtomicLoad, hload, h]; rfl⟩

/-! ## Runs -/

/-- No compare-exchange, and every fetch-max and fetch-min finds the proxy in
order for its operand. -/
def Op.InOrder : Op T → Word → Prop
  | .fetchMax _ val, word | .fetchMin _ val, word => T.ProxyInOrder word val.1
  | .compareExchangeWeak _ _, _ | .compareExchangeStrong _ _, _ => False
  | _, _ => True

theorem Op.cell_fetchMax_valueInt (hT : T.HasFetch) (val : T.Value)
    (x : BitVec T.bits) :
    T.valueInt ((Op.fetchMax hT val).cell x).2 =
      max (T.valueInt x) (T.valueInt val.1) := by
  simp only [Op.cell, valueLt_iff]
  split <;> omega

theorem Op.cell_fetchMin_valueInt (hT : T.HasFetch) (val : T.Value)
    (x : BitVec T.bits) :
    T.valueInt ((Op.fetchMin hT val).cell x).2 =
      min (T.valueInt x) (T.valueInt val.1) := by
  simp only [Op.cell, valueLt_iff]
  split <;> omega

/-- One operation in order gives the reply of the plain cell and keeps the
proxy standing for its value. -/
theorem exec_inOrder (target : Target) {fuel : ℕ} (hfuel : 0 < fuel)
    {op : Op T} {word : Word} {x : BitVec T.bits} (hop : op.InOrder word)
    (h : T.Represents word x) :
    ∃ word', op.exec target fuel word = some ((op.cell x).1, word') ∧
      T.Represents word' (op.cell x).2 := by
  have hload : T.cxxSmallFrom32 word = x := h.value
  cases op with
  | fetchMax hT val =>
      obtain ⟨word', hrun, hword'⟩ := fetchMax_load hT target hfuel val.1 word
      have hmax := (proxyInOrder_iff_max hT word val.1).mpr hop
      refine ⟨word', ?_, represents_of_hasFetch hT ?_⟩
      · simp only [Op.exec, hrun, hload, Op.cell, Option.map, Prod.map, id]
      · rw [← cxxSmallFrom32_of_hasFetch hT, hword']
        apply valueInt_injective
        rw [hmax, Op.cell_fetchMax_valueInt, hload]
  | fetchMin hT val =>
      obtain ⟨word', hrun, hword'⟩ := fetchMin_load hT target hfuel val.1 word
      have hmin := (proxyInOrder_iff_min hT word val.1).mpr hop
      refine ⟨word', ?_, represents_of_hasFetch hT ?_⟩
      · simp only [Op.exec, hrun, hload, Op.cell, Option.map, Prod.map, id]
      · rw [← cxxSmallFrom32_of_hasFetch hT, hword']
        apply valueInt_injective
        rw [hmin, Op.cell_fetchMin_valueInt, hload]
  | compareExchangeWeak _ _ => exact hop.elim
  | compareExchangeStrong _ _ => exact hop.elim
  | store _ | load | exchange _ | fetchAdd _ _ | fetchSub _ _ | fetchAnd _ _
  | fetchOr _ _ | fetchXor _ _ => exact exec_wrapsAround target fuel trivial h

/-- On every proxy that a run without compare-exchange reaches, fetch-max and
fetch-min pick by the order of `T` exactly when the proxy is in order for the
operand; and a run whose fetch-max and fetch-min are all in order cannot be
told from a run on a plain cell. -/
theorem fetchExtremum_meets_iff_inOrder (T : SmallType) (hT : T.HasFetch)
    (target : Target) :
    (∀ word, ReachableProxy T target Op.NoCompareExchange word →
      ∀ v : BitVec T.bits,
        (FetchMaxMeets T target word v ↔ T.ProxyInOrder word v) ∧
        (FetchMinMeets T target word v ↔ T.ProxyInOrder word v)) ∧
    (∀ (fuel : ℕ) (val : T.Value) (ops : List (Op T)), 0 < fuel →
      AllOk (Op.exec target fuel) Op.InOrder ops
        (Small.cxxAtomicInit T val.1) →
      ∃ replies word final,
        runAll (Op.exec target fuel) ops (Small.cxxAtomicInit T val.1) =
          some (replies, word) ∧
        runAll (fun op x => some (op.cell x)) ops val.1 =
          some (replies, final) ∧
        Small.cxxAtomicLoad T word = final) := by
  constructor
  · intro word _ v
    exact ⟨fetchMaxMeets_iff hT target word v, fetchMinMeets_iff hT target word v⟩
  · intro fuel val ops hfuel hok
    obtain ⟨replies, word, final, hword, hcell, hrel⟩ :=
      runAll_simulates (R := T.Represents) (C := Op.InOrder)
        (fun _ _ _ hrel hop => exec_inOrder target hfuel hop hrel)
        (represents_cxxSmallTo32 val) hok
    exact ⟨replies, word, final, hword, hcell, hrel.value⟩

theorem fetchExtremum_meets_iff_inOrder_uint8 :
    (FetchMaxMeets uint8 .host 7 (5 : BitVec uint8.bits) ↔
      uint8.ProxyInOrder 7 (5 : BitVec uint8.bits)) ∧
    ∃ replies word final,
      runAll (Op.exec .host 1) [Op.fetchMax (T := uint8) (by decide) ⟨5, by decide⟩]
          (Small.cxxAtomicInit uint8 7) =
        some (replies, word) ∧
      runAll (fun op x => some (op.cell x))
          [Op.fetchMax (T := uint8) (by decide) ⟨5, by decide⟩]
          (7 : BitVec uint8.bits) =
        some (replies, final) ∧
      Small.cxxAtomicLoad uint8 word = final := by
  obtain ⟨hproxy, hrun⟩ :=
    fetchExtremum_meets_iff_inOrder uint8 (by decide) .host
  refine ⟨(hproxy 7 ⟨⟨7, by decide⟩, [], 0, [], by simp, rfl⟩ 5).1, ?_⟩
  refine hrun 1 ⟨7, by decide⟩ _ (by decide) ⟨?_, fun _ _ _ => trivial⟩
  show uint8.ProxyInOrder _ _
  decide

/-- `255 + 1` leaves `0x100` in the proxy of a `uint8_t`, which then beats the
operand of fetch-max although the value is `0`; `127 + 1` leaves `128` in the
proxy of an `int8_t`, which loses to the operand of fetch-min although the
value is `-128`. -/
theorem fetchExtremum_not_inOrder_carry :
    (∃ word, ReachableProxy uint8 .host Op.NoCompareExchange word ∧
      ¬ FetchMaxMeets uint8 .host word (5 : BitVec uint8.bits)) ∧
    (∃ word, ReachableProxy int8 .device Op.NoCompareExchange word ∧
      ¬ FetchMinMeets int8 .device word (0 : BitVec int8.bits)) := by
  refine ⟨⟨0x100, ⟨⟨255, by decide⟩, [.fetchAdd (by decide) ⟨1, by decide⟩], 0,
    [.value 255], by decide, by decide⟩, ?_⟩,
    ⟨0x80, ⟨⟨127, by decide⟩, [.fetchAdd (by decide) ⟨1, by decide⟩], 0,
    [.value 127], by decide, by decide⟩, ?_⟩⟩
  · rw [fetchMaxMeets_iff (by decide)]
    decide
  · rw [fetchMinMeets_iff (by decide)]
    decide

end Libhipcxx.Atomic
