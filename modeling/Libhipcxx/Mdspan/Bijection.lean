import Libhipcxx.Mdspan.Mapping
import Mathlib.Algebra.BigOperators.Group.List.Lemmas

/-!
# The offsets of layout_left and layout_right

Over positive extents whose product fits the index type, both mappings send
the in-range indices one to one onto the offsets below the product, and no
product or sum on the way overflows.
-/

namespace Libhipcxx.Mdspan

open MixedRadix

variable {T : IntegerType} {extents : List ℕ}

/-- The offsets are those below the product of the extents, each once, and are
the indices by the strides.  No step of an offset overflows. -/
structure IsExhaustive (T : IntegerType) (extents : List ℕ) (offset : List ℕ → Option ℤ)
    (steps : List ℕ → List ℕ) (stride : ℕ → Option ℤ) (weight : ℕ → ℕ) : Prop where
  bijOn : Set.BijOn offset {indices | InRange indices extents}
    ((fun n : ℕ => some (n : ℤ)) '' Set.Iio extents.prod)
  stride_eq : ∀ r < extents.length, stride r = some (weight r : ℤ)
  offset_eq : ∀ indices, InRange indices extents →
    offset indices = some
      ((((List.range extents.length).map fun r => indices.getD r 0 * weight r).sum : ℕ) : ℤ)
  steps_fit : ∀ indices, InRange indices extents → ∀ x ∈ steps indices, T.Fits x

/-- Offsets that are sums by weights are exhaustive when the sums are. -/
theorem isExhaustive_of_dot {ws : List ℕ} {offset : List ℕ → Option ℤ}
    {steps : List ℕ → List ℕ} {stride : ℕ → Option ℤ} {weight : ℕ → ℕ}
    (hbij : Set.BijOn (fun indices => dot indices ws)
      {indices | InRange indices extents} (Set.Iio extents.prod))
    (hoffset : ∀ indices, InRange indices extents →
      offset indices = some ((dot indices ws : ℕ) : ℤ))
    (hws : ∀ r < extents.length, ws[r]? = some (weight r))
    (hstride : ∀ r < extents.length, stride r = some (weight r : ℤ))
    (hsteps : ∀ indices, InRange indices extents → ∀ x ∈ steps indices, T.Fits x) :
    IsExhaustive T extents offset steps stride weight := by
  constructor
  · have hinjective : Function.Injective fun n : ℕ => some (n : ℤ) :=
      (Option.some_injective ℤ).comp Nat.cast_injective
    have hsome : Set.BijOn (fun n : ℕ => some (n : ℤ)) (Set.Iio extents.prod)
        ((fun n : ℕ => some (n : ℤ)) '' Set.Iio extents.prod) :=
      hinjective.injOn.bijOn_image
    exact (hsome.comp hbij).congr fun indices hin => (hoffset indices hin).symm
  · exact hstride
  · intro indices hin
    rw [hoffset indices hin, ← hin.length_eq,
      dot_eq_sum weight (by rwa [hin.length_eq])]
  · exact hsteps

/-! ## Strides that are representable -/

/-- A stride is computed if all weights are representable. -/
theorem leftStride_eq (hfit : ∀ w ∈ weights extents, T.Fits w) {r : ℕ} (hr : r < extents.length) :
    LayoutLeft.stride T extents r = some ((extents.take r).prod : ℤ) := by
  rw [LayoutLeft.stride, foldlM_mulAssign_one]
  intro part hpart
  obtain ⟨k, rfl⟩ : ∃ k, part = extents.take k :=
    ⟨part.length, List.prefix_iff_eq_take.mp (hpart.trans (List.take_prefix r extents))⟩
  have hlength := hpart.length_le
  rw [List.length_take, List.length_take] at hlength
  have hk : min k extents.length < extents.length := by omega
  rw [List.take_eq_take_min]
  exact hfit _ (List.mem_of_getElem? (weights_getElem? extents hk))

theorem rightStride_eq (hfit : ∀ w ∈ topWeights extents, T.Fits w) {r : ℕ}
    (hr : r < extents.length) :
    LayoutRight.stride T extents r = some ((extents.drop (r + 1)).prod : ℤ) := by
  rw [LayoutRight.stride, foldlM_mulAssign_one, List.prod_reverse]
  intro part hpart
  have hsuffix : part.reverse <:+ extents.drop (r + 1) := by
    rw [← List.reverse_prefix, List.reverse_reverse]
    exact hpart
  have hall := hsuffix.trans (List.drop_suffix (r + 1) extents)
  have hlength := hsuffix.length_le
  rw [List.length_drop] at hlength
  have hdrop := List.suffix_iff_eq_drop.mp hall
  have hk : extents.length - part.reverse.length - 1 < extents.length := by omega
  have hmem := List.mem_of_getElem? (topWeights_getElem? extents hk)
  have hplace : extents.length - part.reverse.length - 1 + 1 =
      extents.length - part.reverse.length := by omega
  rw [hplace, ← hdrop, List.prod_reverse] at hmem
  exact hfit _ hmem

/-! ## Positive extents with a representable product -/

/-- The product of some of the extents is representable. -/
theorem fits_prod_of_sublist (hpos : ∀ e ∈ extents, 0 < e) (hfits : T.Fits (extents.prod : ℕ))
    {part : List ℕ} (hpart : part.Sublist extents) : T.Fits (part.prod : ℕ) := by
  have hextents : 0 < extents.prod := List.prod_pos_iff_forall_pos_nat.mpr hpos
  exact IntegerType.fits_of_le_nat (Nat.le_of_dvd hextents hpart.prod_dvd_prod) hfits

theorem requiredSpanSize_eq (hpos : ∀ e ∈ extents, 0 < e) (hfits : T.Fits (extents.prod : ℕ)) :
    requiredSpanSize T extents = some ((extents.prod : ℕ) : ℤ) :=
  foldlM_mulAssign_one fun _ hpart => fits_prod_of_sublist hpos hfits hpart.sublist

theorem fits_weights (hpos : ∀ e ∈ extents, 0 < e) (hfits : T.Fits (extents.prod : ℕ)) :
    ∀ w ∈ weights extents, T.Fits w := by
  intro w hw
  obtain ⟨r, hr, rfl⟩ := List.mem_iff_getElem.mp hw
  rw [length_weights] at hr
  have hweight := weights_getElem? extents hr
  rw [List.getElem?_eq_getElem (by rwa [length_weights]), Option.some_inj] at hweight
  rw [hweight]
  exact fits_prod_of_sublist hpos hfits (List.take_sublist r extents)

theorem fits_topWeights (hpos : ∀ e ∈ extents, 0 < e) (hfits : T.Fits (extents.prod : ℕ)) :
    ∀ w ∈ topWeights extents, T.Fits w := by
  intro w hw
  obtain ⟨r, hr, rfl⟩ := List.mem_iff_getElem.mp hw
  rw [length_topWeights] at hr
  have hweight := topWeights_getElem? extents hr
  rw [List.getElem?_eq_getElem (by rwa [length_topWeights]), Option.some_inj] at hweight
  rw [hweight]
  exact fits_prod_of_sublist hpos hfits (List.drop_sublist (r + 1) extents)

/-- Both layouts are exhaustive, and no product of extents overflows. -/
theorem layouts_exhaustive (hT : T.width ≤ 64) (hpos : ∀ e ∈ extents, 0 < e)
    (hfits : T.Fits (extents.prod : ℕ)) :
    requiredSpanSize T extents = some ((extents.prod : ℕ) : ℤ) ∧
      (∀ part : List ℕ, part.Sublist extents → T.Fits (part.prod : ℕ)) ∧
      IsExhaustive T extents (LayoutLeft.computeOffset T extents) (LayoutLeft.steps extents)
        (LayoutLeft.stride T extents) (fun r => (extents.take r).prod) ∧
      IsExhaustive T extents (LayoutRight.computeOffset T extents) (LayoutRight.steps extents)
        (LayoutRight.stride T extents) (fun r => (extents.drop (r + 1)).prod) := by
  refine ⟨requiredSpanSize_eq hpos hfits, fun part => fits_prod_of_sublist hpos hfits, ?_, ?_⟩
  · have hoffset {indices : List ℕ} (hin : InRange indices extents) :
        T.Fits (dot indices (weights extents) : ℕ) :=
      IntegerType.fits_of_le_nat (dot_weights_lt hin).le hfits
    refine isExhaustive_of_dot (bijOn_weights extents) ?_
      (fun r hr => weights_getElem? extents hr)
      (fun r hr => leftStride_eq (fits_weights hpos hfits) hr) ?_
    · intro indices hin
      exact LayoutLeft.computeOffset_eq hin (hoffset hin)
    · intro indices hin x hx
      exact IntegerType.fits_of_le_nat (LayoutLeft.steps_le hin x hx) (hoffset hin)
  · have hoffset {indices : List ℕ} (hin : InRange indices extents) :
        T.Fits (dot indices (topWeights extents) : ℕ) :=
      IntegerType.fits_of_le_nat (dot_topWeights_lt hin).le hfits
    refine isExhaustive_of_dot (bijOn_topWeights extents) ?_
      (fun r hr => topWeights_getElem? extents hr)
      (fun r hr => rightStride_eq (fits_topWeights hpos hfits) hr) ?_
    · intro indices hin
      exact LayoutRight.computeOffset_eq hin (hoffset hin)
        (IntegerType.size_fits hT (Int.natCast_nonneg _) (hoffset hin))
    · intro indices hin x hx
      exact IntegerType.fits_of_le_nat (LayoutRight.steps_le hin x hx) (hoffset hin)

/-- Extents whose product is almost the largest value of an eight-bit type. -/
theorem layouts_exhaustive_int8 :
    let int8 : IntegerType := ⟨true, 8, by decide⟩
    requiredSpanSize int8 [3, 2, 21] = some 126 ∧
      IsExhaustive int8 [3, 2, 21] (LayoutLeft.computeOffset int8 [3, 2, 21])
        (LayoutLeft.steps [3, 2, 21]) (LayoutLeft.stride int8 [3, 2, 21])
        (fun r => ([3, 2, 21].take r).prod) ∧
      IsExhaustive int8 [3, 2, 21] (LayoutRight.computeOffset int8 [3, 2, 21])
        (LayoutRight.steps [3, 2, 21]) (LayoutRight.stride int8 [3, 2, 21])
        (fun r => ([3, 2, 21].drop (r + 1)).prod) := by
  intro int8
  obtain ⟨hspan, -, hleft, hright⟩ :=
    @layouts_exhaustive int8 [3, 2, 21] (by decide) (by decide) (by decide)
  exact ⟨hspan, hleft, hright⟩

end Libhipcxx.Mdspan
