import Libhipcxx.Mdspan.StaticArray
import Mathlib.Data.List.GetD

/-!
# extents

`extents` keeps a partially static array over its list of extents.  The
constructors choose between the dynamic and the full form by the number of
values they are given.

`static_extent` sums the matching template arguments as `size_t`, returns the
sum as `index_type` and converts it back.  The sentinel survives this for the
signed index types and for those of 64 bits and more, and is lost for a
narrower unsigned one.
-/

namespace Libhipcxx.Mdspan

open StandardLayoutPsa (fromAllValues fromDynamicValues fromAllArray
  fromDynamicArray fromPsa dynamicIndex expected)

structure Extents (T : IntegerType) (extents : List SizeT) where
  storage : StandardLayoutPsa T extents

namespace Extents

variable {T U : IntegerType} {extents others : List SizeT}

/-- `rank_dynamic`. -/
def rankDynamic (extents : List SizeT) : ℕ :=
  extents.foldr (fun extent sum => (if extent = dynamicExtent then 1 else 0) + sum) 0

/-- The fold of `_static_extent_impl` over the indices from `idx` on. -/
def staticExtentSum (n : ℕ) : ℕ → List SizeT → SizeT
  | _, [] => 0
  | idx, extent :: extents =>
      (if idx = n then extent else 0) + staticExtentSum n (idx + 1) extents

/-- `_static_extent_impl`; it returns an `index_type`. -/
def staticExtentImpl (T : IntegerType) (extents : List SizeT) (n : ℕ) : ℤ :=
  T.convert (staticExtentSum n 0 extents).toNat

def staticExtent (T : IntegerType) (extents : List SizeT) (n : ℕ) : SizeT :=
  BitVec.ofInt 64 (staticExtentImpl T extents n)

def extent (X : Extents T extents) (n : ℕ) : Option ℤ := X.storage.get n 0

/-- `__storage().__get_n`. -/
def getN (X : Extents T extents) (n : ℕ) : Option ℤ := X.storage.getN n 0

/-! ## Constructors -/

/-- From values; the constraint is that of the template. -/
def ofValues (T : IntegerType) (extents : List SizeT) (exts : List ℤ) :
    Option (Extents T extents) :=
  if exts.length = rankDynamic extents ∨ exts.length = extents.length then
    (if exts.length = rankDynamic extents then
      fromDynamicValues extents (exts.map T.convert)
    else fromAllValues extents (exts.map T.convert)).map Extents.mk
  else none

/-- What the constructors from an array and from a span share. -/
def ofSequence (T : IntegerType) (extents : List SizeT) (exts : List ℤ) :
    Option (Extents T extents) :=
  if exts.length = extents.length ∨ exts.length = rankDynamic extents then
    (if exts.length = rankDynamic extents then fromDynamicArray extents 0 exts
    else fromAllArray extents 0 exts).map Extents.mk
  else none

def ofArray (T : IntegerType) (extents : List SizeT) (exts : List ℤ) :
    Option (Extents T extents) := ofSequence T extents exts

def ofSpan (T : IntegerType) (extents : List SizeT) (exts : List ℤ) :
    Option (Extents T extents) := ofSequence T extents exts

/-- `__check_compatible_extents`. -/
def checkCompatibleExtents (extents others : List SizeT) : Bool :=
  extents.length == others.length &&
    (extents.zip others).all fun (extent, other) =>
      extent == dynamicExtent || other == dynamicExtent || extent == other

/-- The converting constructor. -/
def ofExtents (T : IntegerType) (extents : List SizeT) (other : Extents U others) :
    Option (Extents T extents) :=
  if checkCompatibleExtents extents others then
    (fromPsa extents others 0 other.storage).map Extents.mk
  else none

/-! ## Equality -/

/-- `==` of values of two integer types. -/
def valuesEqual (T U : IntegerType) (x y : ℤ) : Bool :=
  (T.common U).convert x == (T.common U).convert y

/-- The fold of `_eq_impl` over a list of indices. -/
def eqImpl (X : Extents T extents) (Y : Extents U others) : List ℕ → Option Bool
  | [] => some true
  | idx :: idxs => do
      let x ← X.getN idx
      let y ← Y.getN idx
      let rest ← eqImpl X Y idxs
      return valuesEqual T U x y && rest

/-- `operator==`. -/
def eq (X : Extents T extents) (Y : Extents U others) : Option Bool :=
  if others.length = extents.length then eqImpl X Y (List.range others.length)
  else some false

/-! ## The elements of the storage -/

def elements (X : Extents T extents) : List ℤ := X.storage.elements

theorem getN_eq (X : Extents T extents) (r : ℕ) : X.getN r = X.elements[r]? := by
  have h := StandardLayoutPsa.getN_eq X.storage r 0
  rwa [Nat.zero_add] at h

theorem extent_eq (X : Extents T extents) (r : ℕ) :
    X.extent r = some (X.elements.getD r 0) := by
  rw [extent, StandardLayoutPsa.get_eq, StandardLayoutPsa.select,
    if_pos (Nat.zero_le r), Nat.sub_zero, elements]

theorem getN_of_lt (X : Extents T extents) {r : ℕ} (hr : r < extents.length) :
    X.getN r = some (X.elements.getD r 0) := by
  have hlength : r < X.elements.length := by
    rwa [elements, StandardLayoutPsa.length_elements]
  rw [getN_eq, List.getElem?_eq_getElem hlength, List.getD_eq_getElem _ _ hlength]

theorem fits_getD_elements (X : Extents T extents) (r : ℕ) :
    T.Fits (X.elements.getD r 0) := by
  have h := X.storage.fits_select r 0
  rwa [StandardLayoutPsa.select, if_pos (Nat.zero_le r), Nat.sub_zero] at h

theorem rankDynamic_eq (extents : List SizeT) :
    rankDynamic extents = extents.count dynamicExtent := by
  induction extents with
  | nil => rfl
  | cons extent extents ih =>
      rw [rankDynamic, List.foldr_cons, ← rankDynamic, ih, List.count_cons,
        Nat.add_comm]
      simp

/-! ## Construction -/

/-- The static extents are representable in the index type. -/
def StaticsFit (T : IntegerType) (extents : List SizeT) : Prop :=
  ∀ extent ∈ extents, extent ≠ dynamicExtent → T.Fits extent.toNat

/-- What a list of values supplies for dimension `r`: the `k`-th value for the
`k`-th dynamic dimension, or one value for every dimension. -/
def supplied (extents : List SizeT) (exts : List ℤ) (r : ℕ) : ℤ :=
  if exts.length = rankDynamic extents then exts.getD (dynamicIndex extents r) 0
  else exts.getD r 0

/-- The extent of dimension `r`: the static one, or the one supplied. -/
def extentAt (extents : List SizeT) (supplied : ℕ → ℤ) (r : ℕ) : ℤ :=
  if extents.getD r 0 = dynamicExtent then supplied r
  else (extents.getD r 0).toNat

/-- Both selectors give the values. -/
def HasExtents (X : Extents T extents) (value : ℕ → ℤ) : Prop :=
  ∀ r < extents.length, X.extent r = some (value r) ∧ X.getN r = some (value r)

theorem hasExtents_of_expected (hstatic : StaticsFit T extents)
    {X : Extents T extents} {value : ℕ → ℤ}
    (helements : X.elements = expected T extents value)
    (hfits : ∀ r, T.Fits (value r)) :
    HasExtents X (extentAt extents value) := by
  intro r hr
  have hvalue : X.elements.getD r 0 = extentAt extents value r := by
    rw [helements, expected, List.getD_eq_getElem _ _ (by simpa using hr),
      List.getElem_mapIdx, extentAt, List.getD_eq_getElem _ _ hr]
    split
    · exact IntegerType.convert_of_fits (hfits r)
    · rename_i hne
      exact IntegerType.convert_of_fits
        (hstatic _ (List.getElem_mem hr) hne)
  rw [X.extent_eq, X.getN_of_lt hr, hvalue]
  exact ⟨rfl, rfl⟩

theorem fits_getD {exts : List ℤ} (h : ∀ x ∈ exts, T.Fits x) (r : ℕ) :
    T.Fits (exts.getD r 0) := by
  rw [List.getD_eq_getElem?_getD]
  cases hx : exts[r]? with
  | none => exact T.fits_zero
  | some x => exact h x (List.mem_of_getElem? hx)

theorem fits_supplied {exts : List ℤ} (h : ∀ x ∈ exts, T.Fits x) (r : ℕ) :
    T.Fits (supplied extents exts r) := by
  unfold supplied
  split
  · exact fits_getD h _
  · exact fits_getD h _

theorem map_convert {exts : List ℤ} (h : ∀ x ∈ exts, T.Fits x) :
    exts.map T.convert = exts := by
  have hsame : exts.map T.convert = exts.map id :=
    List.map_congr_left fun x hx => IntegerType.convert_of_fits (h x hx)
  rw [hsame, List.map_id]

theorem supplied_dynamic {exts : List ℤ}
    (h : exts.length = rankDynamic extents) :
    supplied extents exts = fun r => exts.getD (dynamicIndex extents r) 0 :=
  funext fun _ => if_pos h

theorem supplied_all {exts : List ℤ} (h : exts.length ≠ rankDynamic extents) :
    supplied extents exts = fun r => exts.getD r 0 :=
  funext fun _ => if_neg h

/-- Storage with the elements that were supplied is an `extents` that has
them. -/
theorem exists_of_storage (hstatic : StaticsFit T extents) {value : ℕ → ℤ}
    {storage : Option (StandardLayoutPsa T extents)}
    (hfits : ∀ r, T.Fits (value r))
    (h : ∃ psa, storage = some psa ∧ psa.elements = expected T extents value) :
    ∃ X, storage.map Extents.mk = some X ∧
      HasExtents X (extentAt extents value) := by
  obtain ⟨psa, rfl, helements⟩ := h
  exact ⟨⟨psa⟩, rfl, hasExtents_of_expected hstatic helements hfits⟩

theorem ofValues_spec (hstatic : StaticsFit T extents) {exts : List ℤ}
    (hlength : exts.length = rankDynamic extents ∨ exts.length = extents.length)
    (hfits : ∀ x ∈ exts, T.Fits x) :
    ∃ X, ofValues T extents exts = some X ∧
      HasExtents X (extentAt extents (supplied extents exts)) := by
  rw [ofValues, if_pos hlength, map_convert hfits]
  refine exists_of_storage hstatic (fits_supplied hfits) ?_
  by_cases hdynamic : exts.length = rankDynamic extents
  · have hcount := hdynamic.trans (rankDynamic_eq extents)
    rw [if_pos hdynamic, supplied_dynamic hdynamic]
    exact StandardLayoutPsa.fromDynamicValues_eq hcount
  · rw [if_neg hdynamic, supplied_all hdynamic]
    exact StandardLayoutPsa.fromAllValues_eq (hlength.resolve_left hdynamic)

theorem ofSequence_spec (hstatic : StaticsFit T extents) {exts : List ℤ}
    (hlength : exts.length = rankDynamic extents ∨ exts.length = extents.length)
    (hfits : ∀ x ∈ exts, T.Fits x) :
    ∃ X, ofSequence T extents exts = some X ∧
      HasExtents X (extentAt extents (supplied extents exts)) := by
  rw [ofSequence, if_pos hlength.symm]
  refine exists_of_storage hstatic (fits_supplied hfits) ?_
  by_cases hdynamic : exts.length = rankDynamic extents
  · have hcount := hdynamic.trans (rankDynamic_eq extents)
    have h := @StandardLayoutPsa.fromDynamicArray_eq T extents exts 0 (by omega)
    rw [if_pos hdynamic, supplied_dynamic hdynamic]
    simpa only [Nat.zero_add] using h
  · have hrank := hlength.resolve_left hdynamic
    have h := @StandardLayoutPsa.fromAllArray_eq T extents exts 0 (by omega)
    rw [if_neg hdynamic, supplied_all hdynamic]
    simpa only [Nat.zero_add] using h

/-- The precondition of the conversion, which the source states in a comment:
every extent of the other is representable, and is the static one where there
is one. -/
def ConversionPre (T : IntegerType) (extents : List SizeT)
    (Y : Extents U others) : Prop :=
  ∀ r < extents.length, ∀ y, Y.extent r = some y →
    T.Fits y ∧
      (extents.getD r 0 ≠ dynamicExtent → y = (extents.getD r 0).toNat)

theorem length_of_compatible (h : checkCompatibleExtents extents others = true) :
    extents.length = others.length := by
  simp only [checkCompatibleExtents, Bool.and_eq_true, beq_iff_eq] at h
  exact h.1

theorem ofExtents_spec (hstatic : StaticsFit T extents) {Y : Extents U others}
    (hcompatible : checkCompatibleExtents extents others = true)
    (hpre : ConversionPre T extents Y) :
    ∃ X : Extents T extents, ofExtents T extents Y = some X ∧
      ∀ r < extents.length, X.extent r = Y.extent r ∧ X.getN r = Y.getN r := by
  have hlength := length_of_compatible hcompatible
  have hfits : ∀ r, T.Fits (Y.elements.getD r 0) := by
    intro r
    by_cases hr : r < extents.length
    · exact (hpre r hr _ (Y.extent_eq r)).1
    · have hnone : Y.elements.length ≤ r := by
        rw [elements, StandardLayoutPsa.length_elements]
        omega
      rw [List.getD_eq_default _ _ hnone]
      exact T.fits_zero
  rw [ofExtents, if_pos hcompatible]
  obtain ⟨X, hX, hhas⟩ := exists_of_storage hstatic hfits
    (@StandardLayoutPsa.fromPsa_eq T U extents others Y.storage 0 hlength)
  refine ⟨X, hX, ?_⟩
  intro r hr
  have hvalue : extentAt extents (fun r => Y.elements.getD r 0) r =
      Y.elements.getD r 0 := by
    rw [extentAt]
    split
    · rfl
    · exact ((hpre r hr _ (Y.extent_eq r)).2 ‹_›).symm
  obtain ⟨hextent, hgetN⟩ := hhas r hr
  rw [hextent, hgetN, hvalue, Y.extent_eq, Y.getN_of_lt (hlength ▸ hr)]
  exact ⟨rfl, rfl⟩

/-! ## Static extents -/

theorem staticExtentSum_eq (extents : List SizeT) (n idx : ℕ) :
    staticExtentSum n idx extents =
      if idx ≤ n then extents.getD (n - idx) 0 else 0 := by
  induction extents generalizing idx with
  | nil => simp [staticExtentSum]
  | cons extent extents ih =>
      rw [staticExtentSum, ih]
      rcases Nat.lt_trichotomy idx n with hlt | rfl | hgt
      · have hshift : n - idx = n - (idx + 1) + 1 := by omega
        rw [if_neg (by omega), if_pos (by omega), if_pos (by omega), hshift,
          List.getD_cons_succ]
        simp
      · simp
      · rw [if_neg (by omega), if_neg (by omega), if_neg (by omega)]
        simp

theorem staticExtent_eq (T : IntegerType) (extents : List SizeT) (r : ℕ) :
    staticExtent T extents r =
      BitVec.ofInt 64 (T.convert (extents.getD r 0).toNat) := by
  rw [staticExtent, staticExtentImpl, staticExtentSum_eq,
    if_pos (Nat.zero_le r), Nat.sub_zero]

theorem ofInt_toNat (value : SizeT) : BitVec.ofInt 64 value.toNat = value := by
  rw [BitVec.ofInt_natCast, BitVec.ofNat_toNat, BitVec.setWidth_eq]

theorem ofInt_eq_ofInt {x y : ℤ} :
    BitVec.ofInt 64 x = BitVec.ofInt 64 y ↔ x % 2 ^ 64 = y % 2 ^ 64 := by
  rw [← BitVec.toNat_inj, BitVec.toNat_ofInt, BitVec.toNat_ofInt]
  push_cast
  omega

/-- Whether the sentinel survives the conversion to the index type. -/
theorem sentinel_survives (T : IntegerType) :
    BitVec.ofInt 64 (T.convert dynamicExtent.toNat) = dynamicExtent ↔
      T.signed = true ∨ 64 ≤ T.width := by
  have hsentinel : (dynamicExtent.toNat : ℤ) = 2 ^ 64 - 1 := by decide
  have hback : dynamicExtent = BitVec.ofInt 64 (2 ^ 64 - 1) := by decide
  rw [hsentinel]
  conv_lhs => rw [hback]
  rw [ofInt_eq_ofInt]
  by_cases hwide : 64 ≤ T.width
  · have hdvd : (2 : ℤ) ^ 64 ∣ 2 ^ T.width := pow_dvd_pow 2 hwide
    rw [← Int.emod_emod_of_dvd (T.convert _) hdvd, T.convert_emod,
      Int.emod_emod_of_dvd _ hdvd]
    simp [hwide]
  · have hdvd : (2 : ℤ) ^ T.width ∣ 2 ^ 64 := pow_dvd_pow 2 (by omega)
    have hwidth := T.two_pow_width
    have hpow : (2 : ℤ) ^ T.width ≤ 2 ^ 63 := pow_le_pow_right₀ (by decide) (by omega)
    by_cases hsigned : T.signed = true
    · -- The sentinel is minus one as a signed value.
      have hminus : T.convert (2 ^ 64 - 1) = -1 := by
        have hfits : T.Fits (-1) := by
          have hhalf := T.half_pos
          rw [IntegerType.Fits, IntegerType.min, IntegerType.max, if_pos hsigned,
            if_pos hsigned]
          omega
        rw [← IntegerType.convert_of_fits hfits]
        refine IntegerType.convert_congr ?_
        obtain ⟨k, hk⟩ := hdvd
        rw [hk, sub_eq_neg_add, Int.add_mul_emod_self_left]
      rw [hminus]
      simp [hsigned]
    · have hrest := T.fits_convert (2 ^ 64 - 1)
      rw [IntegerType.Fits, IntegerType.min, IntegerType.max, if_neg hsigned,
        if_neg hsigned] at hrest
      have hlost : ¬ T.convert (2 ^ 64 - 1) % 2 ^ 64 = (2 ^ 64 - 1) % 2 ^ 64 := by
        omega
      exact iff_of_false hlost (by simp [hsigned, hwide])

theorem staticExtent_of_fits (hstatic : StaticsFit T extents) {r : ℕ}
    (hr : r < extents.length) (hne : extents[r] ≠ dynamicExtent) :
    staticExtent T extents r = extents[r] := by
  rw [staticExtent_eq, List.getD_eq_getElem _ _ hr,
    IntegerType.convert_of_fits (hstatic _ (List.getElem_mem hr) hne),
    ofInt_toNat]

theorem staticExtent_dynamic {r : ℕ} (hr : r < extents.length)
    (hdynamic : extents[r] = dynamicExtent) :
    staticExtent T extents r = extents[r] ↔
      T.signed = true ∨ 64 ≤ T.width := by
  rw [staticExtent_eq, List.getD_eq_getElem _ _ hr, hdynamic, sentinel_survives]

/-- The template arguments are all read back unless the sentinel is among them
and is lost. -/
theorem staticExtent_iff (hstatic : StaticsFit T extents) :
    (∀ r, ∀ hr : r < extents.length, staticExtent T extents r = extents[r]) ↔
      T.signed = true ∨ 64 ≤ T.width ∨ rankDynamic extents = 0 := by
  rw [rankDynamic_eq, List.count_eq_zero, ← or_assoc]
  constructor
  · intro h
    by_cases hmem : dynamicExtent ∈ extents
    · obtain ⟨r, hr, hdynamic⟩ := List.getElem_of_mem hmem
      exact Or.inl ((staticExtent_dynamic hr hdynamic).mp (h r hr))
    · exact Or.inr hmem
  · intro h r hr
    by_cases hdynamic : extents[r] = dynamicExtent
    · refine (staticExtent_dynamic hr hdynamic).mpr (h.resolve_right ?_)
      intro hnone
      exact hnone (hdynamic ▸ List.getElem_mem hr)
    · exact staticExtent_of_fits hstatic hr hdynamic

/-! ## Equality -/

/-- All extents are values that an index can have. -/
def NonNegative (X : Extents T extents) : Prop :=
  ∀ r x, X.extent r = some x → 0 ≤ x

theorem valuesEqual_iff {x y : ℤ} (hx : T.Fits x) (hy : U.Fits y) (hx0 : 0 ≤ x)
    (hy0 : 0 ≤ y) : valuesEqual T U x y = true ↔ x = y := by
  rw [valuesEqual, beq_iff_eq,
    IntegerType.convert_of_fits (IntegerType.fits_common_left U hx hx0),
    IntegerType.convert_of_fits (IntegerType.fits_common_right T hy hy0)]

theorem eqImpl_spec {X : Extents T extents} {Y : Extents U others}
    (hX : NonNegative X) (hY : NonNegative Y)
    (hlength : others.length = extents.length) {idxs : List ℕ}
    (hidxs : ∀ idx ∈ idxs, idx < extents.length) :
    ∃ result, eqImpl X Y idxs = some result ∧
      (result = true ↔ ∀ idx ∈ idxs, X.extent idx = Y.extent idx) := by
  induction idxs with
  | nil => exact ⟨true, rfl, by simp⟩
  | cons idx idxs ih =>
      obtain ⟨rest, hrest, hiff⟩ :=
        ih fun i hi => hidxs i (List.mem_cons_of_mem idx hi)
      have hidx := hidxs idx List.mem_cons_self
      have hvalues := valuesEqual_iff (X.fits_getD_elements idx)
        (Y.fits_getD_elements idx) (hX idx _ (X.extent_eq idx))
        (hY idx _ (Y.extent_eq idx))
      refine ⟨valuesEqual T U (X.elements.getD idx 0) (Y.elements.getD idx 0) &&
        rest, ?_, ?_⟩
      · rw [eqImpl, X.getN_of_lt hidx, Y.getN_of_lt (hlength ▸ hidx), hrest]
        rfl
      · rw [Bool.and_eq_true, hiff, hvalues, List.forall_mem_cons, X.extent_eq,
          Y.extent_eq, Option.some_inj]

theorem eq_spec {X : Extents T extents} {Y : Extents U others}
    (hX : NonNegative X) (hY : NonNegative Y) :
    ∃ result, eq X Y = some result ∧
      (result = true ↔ extents.length = others.length ∧
        ∀ r < extents.length, X.extent r = Y.extent r) := by
  rw [eq]
  by_cases hlength : others.length = extents.length
  · rw [if_pos hlength]
    have hrange : ∀ idx ∈ List.range others.length, idx < extents.length :=
      fun idx hidx => hlength ▸ List.mem_range.mp hidx
    obtain ⟨result, hrun, hiff⟩ := eqImpl_spec hX hY hlength hrange
    refine ⟨result, hrun, ?_⟩
    simp only [hiff, List.mem_range, hlength, true_and]
  · rw [if_neg hlength]
    exact ⟨false, rfl, by simp [Ne.symm hlength]⟩

/-! ## The contract of the storage -/

/-- Every construction stores what it is given, `static_extent` reads the
template arguments back, `rank_dynamic` counts the sentinels, and equality is
equality of the extents. -/
structure StorageCorrect (T : IntegerType) (extents : List SizeT) : Prop where
  ofValues : ∀ exts : List ℤ,
    exts.length = rankDynamic extents ∨ exts.length = extents.length →
    (∀ x ∈ exts, T.Fits x) → ∃ X, ofValues T extents exts = some X ∧
      HasExtents X (extentAt extents (supplied extents exts))
  ofArray : ∀ exts : List ℤ,
    exts.length = rankDynamic extents ∨ exts.length = extents.length →
    (∀ x ∈ exts, T.Fits x) → ∃ X, ofArray T extents exts = some X ∧
      HasExtents X (extentAt extents (supplied extents exts))
  ofSpan : ∀ exts : List ℤ,
    exts.length = rankDynamic extents ∨ exts.length = extents.length →
    (∀ x ∈ exts, T.Fits x) → ∃ X, ofSpan T extents exts = some X ∧
      HasExtents X (extentAt extents (supplied extents exts))
  ofExtents : ∀ (U : IntegerType) (others : List SizeT) (Y : Extents U others),
    checkCompatibleExtents extents others = true → ConversionPre T extents Y →
    ∃ X : Extents T extents, ofExtents T extents Y = some X ∧
      ∀ r < extents.length, X.extent r = Y.extent r ∧ X.getN r = Y.getN r
  selectors : ∀ (X : Extents T extents), ∀ r < extents.length,
    X.extent r = X.getN r
  staticExtent : ∀ r, ∀ hr : r < extents.length,
    staticExtent T extents r = extents[r]
  rankDynamic : rankDynamic extents = extents.count dynamicExtent
  eq : ∀ (U : IntegerType) (others : List SizeT) (X : Extents T extents)
    (Y : Extents U others), NonNegative X → NonNegative Y →
    ∃ result, eq X Y = some result ∧
      (result = true ↔ extents.length = others.length ∧
        ∀ r < extents.length, X.extent r = Y.extent r)

/-- The storage is correct exactly where the sentinel survives the index type:
for a signed one, for one of at least 64 bits, or without dynamic extents. -/
theorem storageCorrect_iff (hstatic : StaticsFit T extents) :
    StorageCorrect T extents ↔
      T.signed = true ∨ 64 ≤ T.width ∨ rankDynamic extents = 0 := by
  constructor
  · intro h
    exact (staticExtent_iff hstatic).mp h.staticExtent
  · intro h
    constructor
    · intro exts hlength hfits
      exact ofValues_spec hstatic hlength hfits
    · intro exts hlength hfits
      exact ofSequence_spec hstatic hlength hfits
    · intro exts hlength hfits
      exact ofSequence_spec hstatic hlength hfits
    · intro U others Y hcompatible hpre
      exact ofExtents_spec hstatic hcompatible hpre
    · intro X r hr
      rw [X.extent_eq, X.getN_of_lt hr]
    · exact (staticExtent_iff hstatic).mpr h
    · exact rankDynamic_eq extents
    · intro U others X Y hX hY
      exact eq_spec hX hY

theorem staticsFit_cons_static {value : SizeT} (hvalue : T.Fits value.toNat)
    (h : StaticsFit T extents) : StaticsFit T (value :: extents) :=
  List.forall_mem_cons.mpr ⟨fun _ => hvalue, h⟩

theorem staticsFit_dynamic (T : IntegerType) : StaticsFit T [dynamicExtent] :=
  List.forall_mem_singleton.mpr fun h => absurd rfl h

/-- A signed index type with a static and a dynamic extent. -/
theorem storageCorrect_int : StorageCorrect IntegerType.int [3, dynamicExtent] := by
  have hfits : IntegerType.int.Fits (3 : SizeT).toNat := by
    constructor
    · exact (IntegerType.min_nonpos _).trans (Int.natCast_nonneg _)
    · simp [IntegerType.int, IntegerType.max]
  exact (storageCorrect_iff (staticsFit_cons_static hfits (staticsFit_dynamic _))).mpr
    (Or.inl rfl)

/-- For `extents<uint32_t, dynamic_extent>` the static extent is 4294967295. -/
theorem staticExtent_uint32_not_correct :
    ¬ ∀ (T : IntegerType) (extents : List SizeT), StaticsFit T extents →
      StorageCorrect T extents := by
  intro h
  have hcorrect :=
    h ⟨false, 32, by decide⟩ [dynamicExtent] (staticsFit_dynamic _)
  have hread := hcorrect.staticExtent 0 (by decide)
  have hvalue : staticExtent ⟨false, 32, by decide⟩ [dynamicExtent] 0 =
      4294967295 := by decide
  rw [hvalue] at hread
  revert hread
  decide

end Extents

end Libhipcxx.Mdspan
