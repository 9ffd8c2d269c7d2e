import Libhipcxx.Atomic.Extremum
import Libhipcxx.Support.MachineInt

/-!
# Compare-exchange on the proxy

The strong form retries the weak one while a failure comes from the high bits
of the proxy alone, and a weak failure of that kind clears those bits.  The
retry succeeds when the cleared proxy is the proxy of `*__expected`.  For a
negative value of a signed `T` it never is: the proxy of the value is sign
extended, and the cleared proxy is not.
-/

namespace Libhipcxx.Atomic

open SmallType Replies MachineInt

variable {T : SmallType}

/-! ## The mask -/

theorem mask_eq (T : SmallType) :
    Small.mask T = (BitVec.allOnes T.bits).setWidth 32 := by
  have hbits := T.bits_le
  exact one_shiftLeft_sub_one (by omega)

/-- Masking keeps the low bits of the proxy and clears the others. -/
theorem and_mask (word : Word) :
    word &&& Small.mask T = (word.setWidth T.bits).setWidth 32 := by
  apply BitVec.eq_of_getLsbD_eq
  intro i hi
  rw [mask_eq, BitVec.getLsbD_and, BitVec.getLsbD_setWidth, BitVec.getLsbD_allOnes,
    BitVec.getLsbD_setWidth, BitVec.getLsbD_setWidth]
  simp only [hi, decide_true, Bool.true_and]
  exact Bool.and_comm _ _

theorem and_mask_of_setWidth {word : Word} {v : BitVec T.bits}
    (h : word.setWidth T.bits = v) :
    word &&& Small.mask T = v.setWidth 32 := by
  rw [and_mask, h]

/-- The zero extension of a value is its proxy unless `T` is signed and the
value is negative. -/
theorem setWidth_eq_cxxSmallTo32_iff (v : BitVec T.bits) :
    v.setWidth 32 = T.cxxSmallTo32 v ↔
      (T.kind = .signedInt → 0 ≤ v.toInt) := by
  have hbits := T.bits_le
  by_cases hT : T.kind = .signedInt
  · rw [cxxSmallTo32_of_signed hT, setWidth_eq_signExtend_iff (by omega)]
    exact ⟨fun h _ => h, fun h => h hT⟩
  · rw [cxxSmallTo32_of_not_signed hT]
    simp [hT]

/-! ## The weak form -/

variable {word : Word} {expected desired : T.Value}

theorem weak_of_eq_proxy (h : word = T.cxxSmallTo32 expected.1) :
    Small.cxxAtomicCompareExchangeWeak T expected.1 desired.1 word =
      (true, expected.1, T.cxxSmallTo32 desired.1) := by
  simp [Small.cxxAtomicCompareExchangeWeak,
    Heterogeneous.cxxAtomicCompareExchangeWeak, h]

/-- The value differs: the proxy is left alone and `*__expected` receives the
value. -/
theorem weak_of_load_ne (h : T.cxxSmallFrom32 word ≠ expected.1) :
    Small.cxxAtomicCompareExchangeWeak T expected.1 desired.1 word =
      (false, T.cxxSmallFrom32 word, word) := by
  have hword : word ≠ T.cxxSmallTo32 expected.1 := by
    intro hword
    exact h (by rw [hword, cxxSmallFrom32_cxxSmallTo32])
  simp [Small.cxxAtomicCompareExchangeWeak,
    Heterogeneous.cxxAtomicCompareExchangeWeak, hword, h]

/-- Only the high bits differ: they are cleared. -/
theorem weak_of_load_eq (hload : T.cxxSmallFrom32 word = expected.1)
    (hword : word ≠ T.cxxSmallTo32 expected.1) :
    Small.cxxAtomicCompareExchangeWeak T expected.1 desired.1 word =
      (false, expected.1, word &&& Small.mask T) := by
  simp [Small.cxxAtomicCompareExchangeWeak,
    Heterogeneous.cxxAtomicCompareExchangeWeak,
    Heterogeneous.cxxAtomicFetchAnd, hword, hload]

/-! ## The strong form -/

theorem strong_of_eq_proxy (h : word = T.cxxSmallTo32 expected.1)
    (fuel : ℕ) :
    Small.cxxAtomicCompareExchangeStrong T (fuel + 1) expected.1 desired.1
        word =
      some (true, expected.1, T.cxxSmallTo32 desired.1) := by
  rw [Small.cxxAtomicCompareExchangeStrong, Small.compareExchangeStrongLoop,
    weak_of_eq_proxy h]
  rfl

theorem strong_of_load_ne (h : T.cxxSmallFrom32 word ≠ expected.1)
    (fuel : ℕ) :
    Small.cxxAtomicCompareExchangeStrong T (fuel + 1) expected.1 desired.1
        word =
      some (false, T.cxxSmallFrom32 word, word) := by
  rw [Small.cxxAtomicCompareExchangeStrong, Small.compareExchangeStrongLoop,
    weak_of_load_ne h]
  simp [h.symm]

/-- A weak failure from the high bits is followed by another round on the
cleared proxy. -/
theorem strong_retry (hload : T.cxxSmallFrom32 word = expected.1)
    (hword : word ≠ T.cxxSmallTo32 expected.1) (fuel : ℕ) :
    Small.cxxAtomicCompareExchangeStrong T (fuel + 1) expected.1 desired.1
        word =
      Small.cxxAtomicCompareExchangeStrong T fuel expected.1 desired.1
        (word &&& Small.mask T) := by
  rw [Small.cxxAtomicCompareExchangeStrong, Small.compareExchangeStrongLoop,
    weak_of_load_eq hload hword]
  simp [Small.cxxAtomicCompareExchangeStrong]

/-- If the cleared proxy is not the proxy of `*__expected`, the loop of the
strong form never returns. -/
theorem strong_diverges (hT : T.HasFetch)
    (hload : word.setWidth T.bits = expected.1)
    (hword : word ≠ T.cxxSmallTo32 expected.1)
    (hmask : expected.1.setWidth 32 ≠ T.cxxSmallTo32 expected.1) (fuel : ℕ) :
    Small.cxxAtomicCompareExchangeStrong T fuel expected.1 desired.1 word =
      none := by
  induction fuel generalizing word with
  | zero => rfl
  | succ fuel ih =>
      have hclear := and_mask_of_setWidth hload
      have hload' : T.cxxSmallFrom32 word = expected.1 := by
        rw [cxxSmallFrom32_of_hasFetch hT, hload]
      have hagain : (word &&& Small.mask T).setWidth T.bits = expected.1 := by
        rw [and_mask, BitVec.setWidth_setWidth_of_le _ (bits_le_word T),
          BitVec.setWidth_setWidth_of_le _ (Nat.le_refl _), hload]
      rw [strong_retry hload' hword]
      exact ih hagain (by rw [hclear]; exact hmask)

/-! ## `bool` proxies -/

/-- A `bool` proxy is `0` or `1`; other types have no constraint. -/
def SmallType.BooleanProxy (T : SmallType) (word : Word) : Prop :=
  T.kind = .boolean → word.toNat ≤ 1

theorem booleanProxy_cxxSmallTo32 (v : T.Value) :
    T.BooleanProxy (T.cxxSmallTo32 v.1) :=
  (represents_cxxSmallTo32 v).boolean

theorem eq_proxy_of_boolean (hT : T.kind = .boolean)
    (hword : T.BooleanProxy word) (h : T.cxxSmallFrom32 word = expected.1) :
    word = T.cxxSmallTo32 expected.1 := by
  have hrange := hword hT
  have hfrom : T.cxxSmallFrom32 word = if word = 0 then 0 else 1 := by
    simp only [cxxSmallFrom32, hT]
  rw [cxxSmallTo32_of_not_signed (by simp [hT]), ← h, hfrom]
  have hone : (1 : BitVec T.bits).toNat = 1 := by
    simpa using Nat.one_mod_two_pow_eq_one.mpr T.bits_pos
  apply BitVec.eq_of_toNat_eq
  rcases Nat.le_one_iff_eq_zero_or_eq_one.mp hrange with hzero | hzero
  · have hword : word = 0 := BitVec.eq_of_toNat_eq hzero
    simp [hword]
  · have hword : word ≠ 0 := by
      intro h0
      simp [h0] at hzero
    rw [if_neg hword, BitVec.toNat_setWidth, hone, hzero]

theorem weak_booleanProxy (expected : BitVec T.bits) (desired : T.Value)
    (hword : T.BooleanProxy word) :
    T.BooleanProxy
      (Small.cxxAtomicCompareExchangeWeak T expected desired.1 word).2.2 := by
  intro hT
  unfold Small.cxxAtomicCompareExchangeWeak
  by_cases hmatch : word = T.cxxSmallTo32 expected
  · simpa [Heterogeneous.cxxAtomicCompareExchangeWeak, hmatch] using
      booleanProxy_cxxSmallTo32 desired hT
  · by_cases hload : T.cxxSmallFrom32 word = expected
    · have hand : (word &&& Small.mask T).toNat ≤ word.toNat := by
        rw [BitVec.toNat_and]
        exact Nat.and_le_left
      simpa [Heterogeneous.cxxAtomicCompareExchangeWeak,
        Heterogeneous.cxxAtomicFetchAnd, hmatch, hload] using
        Nat.le_trans hand (hword hT)
    · simpa [Heterogeneous.cxxAtomicCompareExchangeWeak, hmatch, hload] using
        hword hT

theorem strongLoop_booleanProxy (old : BitVec T.bits) (desired : T.Value)
    {fuel : ℕ} {expected : BitVec T.bits}
    {out : Bool × BitVec T.bits × Word} (hword : T.BooleanProxy word)
    (h : Small.compareExchangeStrongLoop T old desired.1 fuel expected word =
      some out) :
    T.BooleanProxy out.2.2 := by
  induction fuel generalizing expected word with
  | zero => cases h
  | succ fuel ih =>
      have hweak := weak_booleanProxy expected desired hword
      rcases hround : Small.cxxAtomicCompareExchangeWeak T expected desired.1
        word with ⟨ok, expected', word'⟩
      rw [hround] at hweak
      simp only [Small.compareExchangeStrongLoop, hround] at h
      split at h
      · cases h
        exact hweak
      · split at h
        · cases h
          exact hweak
        · exact ih hweak h

/-- Every operation of a small `bool` atomic leaves `0` or `1` behind. -/
theorem exec_booleanProxy {target : Target} {fuel : ℕ} {op : Op T}
    {reply : Reply T} {word' : Word} (hword : T.BooleanProxy word)
    (h : op.exec target fuel word = some (reply, word')) :
    T.BooleanProxy word' := by
  intro hT
  cases op with
  | store val =>
      cases h
      exact booleanProxy_cxxSmallTo32 val hT
  | load =>
      cases h
      exact hword hT
  | exchange val =>
      cases h
      exact booleanProxy_cxxSmallTo32 val hT
  | compareExchangeWeak expected desired =>
      cases h
      exact weak_booleanProxy expected.1 desired hword hT
  | compareExchangeStrong expected desired =>
      obtain ⟨out, hout, hpair⟩ := Option.map_eq_some_iff.mp h
      cases hpair
      exact strongLoop_booleanProxy expected.1 desired hword hout hT
  | fetchAdd hfetch _ | fetchSub hfetch _ | fetchAnd hfetch _
  | fetchOr hfetch _ | fetchXor hfetch _ | fetchMax hfetch _
  | fetchMin hfetch _ => exact absurd hT hfetch

theorem reachableProxy_boolean {target : Target} {P : Op T → Prop}
    (h : ReachableProxy T target P word) : T.BooleanProxy word := by
  obtain ⟨val, ops, fuel, replies, -, hrun⟩ := h
  exact runAll_invariant (P := T.BooleanProxy)
    (fun _ _ _ _ hInv hstep => exec_booleanProxy hInv hstep)
    (booleanProxy_cxxSmallTo32 val) hrun

/-! ## When the strong form is a compare-exchange of `T` -/

/-- If the value is the expected one, then either the proxy is already the
proxy of that value, or clearing its high bits makes it so. -/
def SmallType.ProxyRestorable (T : SmallType) (word : Word)
    (expected : BitVec T.bits) : Prop :=
  T.cxxSmallFrom32 word = expected →
    word = T.cxxSmallTo32 expected ∨
      (T.kind = .signedInt → 0 ≤ expected.toInt)

instance (word : Word) (expected : BitVec T.bits) :
    Decidable (T.ProxyRestorable word expected) := by
  unfold SmallType.ProxyRestorable
  infer_instance

/-- The strong form returns, with `true` exactly when the value is the
expected one; then the value becomes the desired one, and otherwise it stays
and `*__expected` receives it. -/
def CompareExchangeMeets (T : SmallType) (word : Word)
    (expected desired : BitVec T.bits) : Prop :=
  ∃ enough, ∀ fuel ≥ enough, ∃ ok expected' word',
    Small.cxxAtomicCompareExchangeStrong T fuel expected desired word =
      some (ok, expected', word') ∧
    (ok = true ↔ Small.cxxAtomicLoad T word = expected) ∧
    (ok = true → Small.cxxAtomicLoad T word' = desired) ∧
    (ok = false → Small.cxxAtomicLoad T word' = Small.cxxAtomicLoad T word ∧
      expected' = Small.cxxAtomicLoad T word)

/-- The strong form on a restorable proxy: two rounds are enough. -/
theorem strong_of_restorable (desired : T.Value) (hword : T.BooleanProxy word)
    (h : T.ProxyRestorable word expected.1) (fuel : ℕ) :
    Small.cxxAtomicCompareExchangeStrong T (fuel + 2) expected.1 desired.1
        word =
      some (if T.cxxSmallFrom32 word = expected.1
        then (true, expected.1, T.cxxSmallTo32 desired.1)
        else (false, T.cxxSmallFrom32 word, word)) := by
  by_cases hload : T.cxxSmallFrom32 word = expected.1
  · rw [if_pos hload]
    by_cases hmatch : word = T.cxxSmallTo32 expected.1
    · exact strong_of_eq_proxy hmatch (fuel + 1)
    · have hT : T.HasFetch := fun hbool =>
        hmatch (eq_proxy_of_boolean hbool hword hload)
      have hnonneg := (h hload).resolve_left hmatch
      have hclear : word &&& Small.mask T = T.cxxSmallTo32 expected.1 := by
        rw [and_mask_of_setWidth (cxxSmallFrom32_of_hasFetch hT word ▸ hload)]
        exact (setWidth_eq_cxxSmallTo32_iff expected.1).mpr hnonneg
      rw [strong_retry hload hmatch (fuel + 1)]
      exact strong_of_eq_proxy hclear fuel
  · rw [if_neg hload]
    exact strong_of_load_ne hload (fuel + 1)

theorem compareExchangeMeets_of_restorable (hword : T.BooleanProxy word)
    (h : T.ProxyRestorable word expected.1) :
    CompareExchangeMeets T word expected.1 desired.1 := by
  refine ⟨2, fun fuel hfuel => ?_⟩
  obtain ⟨k, rfl⟩ := Nat.exists_eq_add_of_le' hfuel
  have hrun := strong_of_restorable desired hword h k
  unfold Small.cxxAtomicLoad
  by_cases hload : T.cxxSmallFrom32 word = expected.1
  · rw [if_pos hload] at hrun
    exact ⟨_, _, _, hrun, by simp [hload],
      fun _ => cxxSmallFrom32_cxxSmallTo32 desired, by simp⟩
  · rw [if_neg hload] at hrun
    exact ⟨_, _, _, hrun, by simp [hload], by simp, fun _ => ⟨rfl, rfl⟩⟩

theorem restorable_of_compareExchangeMeets (expected desired : T.Value)
    (hword : T.BooleanProxy word)
    (h : CompareExchangeMeets T word expected.1 desired.1) :
    T.ProxyRestorable word expected.1 := by
  intro hload
  by_contra hfail
  obtain ⟨hmatch, hneg⟩ := not_or.mp hfail
  have hT : T.HasFetch := fun hbool =>
    hmatch (eq_proxy_of_boolean hbool hword hload)
  obtain ⟨enough, hrun⟩ := h
  obtain ⟨ok, expected', word', hsome, -⟩ := hrun enough (Nat.le_refl _)
  rw [strong_diverges hT (cxxSmallFrom32_of_hasFetch hT word ▸ hload) hmatch
    (fun hzero => hneg ((setWidth_eq_cxxSmallTo32_iff expected.1).mp hzero))]
    at hsome
  cases hsome

/-- On every proxy that a run of any operations reaches, the strong form is a
compare-exchange of `T` exactly when the proxy can be restored. -/
theorem compareExchangeStrong_meets_iff (T : SmallType) (target : Target)
    (word : Word) (hword : ReachableProxy T target (fun _ => True) word)
    (expected desired : T.Value) :
    CompareExchangeMeets T word expected.1 desired.1 ↔
      T.ProxyRestorable word expected.1 :=
  ⟨restorable_of_compareExchangeMeets expected desired
      (reachableProxy_boolean hword),
    compareExchangeMeets_of_restorable (reachableProxy_boolean hword)⟩

theorem compareExchangeStrong_meets_iff_uint8 :
    CompareExchangeMeets uint8 0x100 (0 : BitVec uint8.bits) 7 ↔
      uint8.ProxyRestorable 0x100 (0 : BitVec uint8.bits) :=
  compareExchangeStrong_meets_iff uint8 .device 0x100
    ⟨⟨255, by decide⟩, [.fetchAdd (by decide) ⟨1, by decide⟩], 0,
      [.value 255], by simp, by decide⟩
    ⟨0, by decide⟩ ⟨7, by decide⟩

/-- `127 + 1` leaves `0x80` in the proxy of an `int8_t`.  Its value is `-128`,
but a strong compare-exchange that expects `-128` never returns. -/
theorem compareExchangeStrong_diverges_int8 :
    ∃ word, ReachableProxy int8 .device (fun _ => True) word ∧
      Small.cxxAtomicLoad int8 word = (-128 : BitVec int8.bits) ∧
      ¬ CompareExchangeMeets int8 word (-128 : BitVec int8.bits) 0 := by
  have hword : ReachableProxy int8 .device (fun _ => True) 0x80 :=
    ⟨⟨127, by decide⟩, [.fetchAdd (by decide) ⟨1, by decide⟩], 0,
      [.value 127], by simp, by decide⟩
  refine ⟨0x80, hword, by decide, fun h => ?_⟩
  have hrestorable := restorable_of_compareExchangeMeets ⟨-128, by decide⟩
    ⟨0, by decide⟩ (reachableProxy_boolean hword) h
  exact absurd hrestorable (by decide)

end Libhipcxx.Atomic
