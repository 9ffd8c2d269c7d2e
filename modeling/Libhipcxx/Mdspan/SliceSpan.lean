import Libhipcxx.Mdspan.Meaning
import Libhipcxx.Mdspan.Strided

/-!
# The span of a slice

A slice that has elements stays inside the span of its source.  One without
elements has span zero, but its start is the sum of the starts of the slices by
the strides, as the index type computes it, and a start may equal the extent:
the sum may be beyond the span.
-/

namespace Libhipcxx.Mdspan

open MixedRadix

variable {T : IntegerType}

namespace Mapping

/-- `required_span_size` of each layout. -/
def requiredSpanSize : Mapping T → Option ℤ
  | left extents => Mdspan.requiredSpanSize T (extents.map Extent.value)
  | right extents => Mdspan.requiredSpanSize T (extents.map Extent.value)
  | stride extents strides _ _ =>
    StrideMapping.spanSizeLoop T 1 ((extents.map Extent.value).zip strides)

/-- One more than the greatest offset, or zero if there is none. -/
def span (m : Mapping T) : ℕ := if 0 ∈ m.sizes then 0 else 1 + greatest m.sizes m.weights

variable {m : Mapping T}

theorem span_of_pos (h : 0 ∉ m.sizes) : m.span = 1 + greatest m.sizes m.weights := if_neg h

theorem span_of_zero (h : 0 ∈ m.sizes) : m.span = 0 := if_pos h

theorem pos_of_not_mem {xs : List ℕ} (h : 0 ∉ xs) : ∀ x ∈ xs, 0 < x :=
  fun _ hx => Nat.pos_of_ne_zero fun hzero => h (hzero ▸ hx)

/-- The product of the extents is the span of the layouts by products. -/
theorem prod_eq_span (hweights : m.weights = MixedRadix.weights m.sizes ∨
    m.weights = topWeights m.sizes) : m.sizes.prod = m.span := by
  by_cases hzero : 0 ∈ m.sizes
  · rw [span_of_zero hzero, List.prod_eq_zero hzero]
  · rw [span_of_pos hzero]
    rcases hweights with hleft | hright
    · rw [hleft, one_add_greatest_weights (pos_of_not_mem hzero)]
    · rw [hright, one_add_greatest_topWeights (pos_of_not_mem hzero)]

/-- The loop over stored strides. -/
theorem requiredSpanSize_stride_iff {extents : List Extent} {strides : List ℤ}
    {hlength : strides.length = extents.length} {hstrides : ∀ s ∈ strides, T.Fits s} {value : ℤ}
    (hfit : ∀ e ∈ extents.map Extent.value, T.Fits e) :
    (stride extents strides hlength hstrides).requiredSpanSize = some value ↔
      StrideMapping.SpanStepsFit T 1 ((extents.map Extent.value).zip strides) ∧
        value = if 0 ∈ extents.map Extent.value then 0 else
          T.convert (1 + StrideMapping.reach ((extents.map Extent.value).zip strides)) := by
  have hlength' : strides.length = (extents.map Extent.value).length := by
    rw [hlength, List.length_map]
  have hfits : ∀ d ∈ (extents.map Extent.value).zip strides, T.Fits d.1 :=
    fun d hd => hfit d.1 (List.of_mem_zip hd).1
  have hloop : StrideMapping.spanSizeLoop T (T.convert 1)
      ((extents.map Extent.value).zip strides) = some value ↔ _ :=
    StrideMapping.spanSizeLoop_eq_some_iff hfits
  rwa [IntegerType.convert_of_fits T.fits_one, List.map_fst_zip hlength'.ge] at hloop

/-- Without elements a span that is computed is zero. -/
theorem eq_zero_of_requiredSpanSize (hzero : 0 ∈ m.sizes) (hfit : ∀ e ∈ m.sizes, T.Fits e)
    {value : ℤ} (h : m.requiredSpanSize = some value) : value = 0 := by
  have hproduct {result : ℤ} (h : Mdspan.requiredSpanSize T m.sizes = some result) :
      result = 0 := by
    obtain ⟨hfits, hmod⟩ := modEq_of_foldlM T.fits_one h
    rw [List.prod_eq_zero hzero, Nat.cast_zero, Int.mul_zero] at hmod
    rw [IntegerType.eq_convert_of_modEq hfits hmod, IntegerType.convert_of_fits T.fits_zero]
  cases m with
  | left extents => exact hproduct h
  | right extents => exact hproduct h
  | stride extents strides hlength hstrides =>
    have hfit' : ∀ e ∈ extents.map Extent.value, T.Fits e := hfit
    have hzero' : 0 ∈ extents.map Extent.value := hzero
    have hvalue := ((requiredSpanSize_stride_iff hfit').mp h).2
    rwa [if_pos hzero'] at hvalue

/-- The partial spans of strides that are not negative add up to the span. -/
theorem one_add_reach {extents : List Extent} {strides : List ℤ}
    (hlength : strides.length = extents.length) (hstrides : ∀ s ∈ strides, T.Fits s)
    (hnonneg : ∀ s ∈ strides, 0 ≤ s) (hpos : 0 ∉ extents.map Extent.value) :
    1 + StrideMapping.reach ((extents.map Extent.value).zip strides) =
      ((stride extents strides hlength hstrides).span : ℕ) := by
  have hspan : (stride extents strides hlength hstrides).span =
      1 + greatest (extents.map Extent.value) (strides.map Int.toNat) := span_of_pos hpos
  have hlength' : (strides.map Int.toNat).length = (extents.map Extent.value).length := by
    rw [List.length_map, List.length_map, hlength]
  have hreach := StrideMapping.reach_zip (pos_of_not_mem hpos) hlength'
  rw [map_cast_toNat hnonneg] at hreach
  rw [hreach, hspan, Nat.cast_add, Nat.cast_one]

/-- A span that is computed is the span. -/
theorem eq_span_of_requiredSpanSize (hnonneg : m.NonnegStrides) (hfit : ∀ e ∈ m.sizes, T.Fits e)
    (hspan : T.Fits m.span) {value : ℤ} (h : m.requiredSpanSize = some value) :
    value = m.span := by
  by_cases hzero : 0 ∈ m.sizes
  · rw [eq_zero_of_requiredSpanSize hzero hfit h, span_of_zero hzero, Nat.cast_zero]
  · have hproduct {result : ℤ} (hprod : m.sizes.prod = m.span)
        (h : Mdspan.requiredSpanSize T m.sizes = some result) : result = m.span := by
      obtain ⟨hfits, hmod⟩ := modEq_of_foldlM T.fits_one h
      rw [Int.one_mul, hprod] at hmod
      rw [IntegerType.eq_convert_of_modEq hfits hmod, IntegerType.convert_of_fits hspan]
    cases m with
    | left extents => exact hproduct (prod_eq_span (Or.inl rfl)) h
    | right extents => exact hproduct (prod_eq_span (Or.inr rfl)) h
    | stride extents strides hlength hstrides =>
      have hfit' : ∀ e ∈ extents.map Extent.value, T.Fits e := hfit
      have hpos' : 0 ∉ extents.map Extent.value := hzero
      have hvalue := ((requiredSpanSize_stride_iff hfit').mp h).2
      rw [if_neg hpos', one_add_reach hlength hstrides hnonneg hpos',
        IntegerType.convert_of_fits hspan] at hvalue
      exact hvalue

/-- Where no extent is zero, a representable span is computed. -/
theorem requiredSpanSize_eq (hpos : 0 ∉ m.sizes) (hnonneg : m.NonnegStrides)
    (hfit : ∀ e ∈ m.sizes, T.Fits e) (hspan : T.Fits m.span) :
    m.requiredSpanSize = some ((m.span : ℕ) : ℤ) := by
  have hproduct (hprod : m.sizes.prod = m.span) :
      Mdspan.requiredSpanSize T m.sizes = some ((m.span : ℕ) : ℤ) := by
    rw [← hprod] at hspan ⊢
    exact Mdspan.requiredSpanSize_eq (pos_of_not_mem hpos) hspan
  cases m with
  | left extents => exact hproduct (prod_eq_span (Or.inl rfl))
  | right extents => exact hproduct (prod_eq_span (Or.inr rfl))
  | stride extents strides hlength hstrides =>
    have hfit' : ∀ e ∈ extents.map Extent.value, T.Fits e := hfit
    have hpos' : 0 ∉ extents.map Extent.value := hpos
    have hreach : 1 + StrideMapping.reach ((extents.map Extent.value).zip strides) =
        ((stride extents strides hlength hstrides).span : ℕ) :=
      one_add_reach hlength hstrides hnonneg hpos'
    apply (requiredSpanSize_stride_iff hfit').mpr
    rw [if_neg hpos', hreach]
    refine ⟨?_, (IntegerType.convert_of_fits hspan).symm⟩
    apply StrideMapping.spanStepsFit_of_fits _ _ (by decide) (hreach ▸ hspan)
    · intro d hd
      exact Nat.ne_of_gt (pos_of_not_mem hpos d.1 (List.of_mem_zip hd).1)
    · intro d hd
      exact hnonneg d.2 (List.of_mem_zip hd).2

/-- Where no extent is zero, a representable span has representable strides. -/
theorem exactStrides_of_span (hpos : 0 ∉ m.sizes) (hnonneg : m.NonnegStrides)
    (hspan : T.Fits m.span) : m.ExactStrides := by
  have hpos' := pos_of_not_mem hpos
  apply exactStrides_of_fits hnonneg
  cases m with
  | left extents =>
    have hprod := prod_eq_span (m := left (T := T) extents) (Or.inl rfl)
    exact fits_weights hpos' (hprod ▸ hspan)
  | right extents =>
    have hprod := prod_eq_span (m := right (T := T) extents) (Or.inr rfl)
    exact fits_topWeights hpos' (hprod ▸ hspan)
  | stride extents strides hlength hstrides =>
    intro w hw
    obtain ⟨s, hs, rfl⟩ := List.mem_map.mp hw
    rw [Int.toNat_of_nonneg (hnonneg s hs)]
    exact hstrides s hs

end Mapping

/-! ## Starts and extents of a slice -/

variable {slices : List Slice} {extents : List Extent}

/-- A slice that has elements starts at an element. -/
theorem inRange_starts (hvalid : List.Forall₂ Slice.Valid slices (extents.map Extent.value))
    (hpos : ∀ e ∈ (resultExtents slices extents).map Extent.value, 0 < e) :
    InRange (slices.map Slice.start) (extents.map Extent.value) := by
  induction slices generalizing extents with
  | nil =>
    rw [List.forall₂_nil_left_iff.mp hvalid]
    exact List.Forall₂.nil
  | cons s ss ih =>
    obtain ⟨size, sizes, hs, hss, hsizes⟩ := List.forall₂_cons_left_iff.mp hvalid
    obtain ⟨e, es, rfl, rfl, rfl⟩ := List.map_eq_cons_iff.mp hsizes
    rcases s.scalar_or_keeps with ⟨i, rfl⟩ | hkeeps
    · exact List.Forall₂.cons hs (ih hss hpos)
    · rw [resultExtents_cons hkeeps, List.map_cons] at hpos
      obtain ⟨hfirst, hrest⟩ := List.forall_mem_cons.mp hpos
      exact List.Forall₂.cons (Slice.start_add_lt hs hfirst hkeeps) (ih hss hrest)

/-- The extents of a slice are no larger than those of the source. -/
theorem forall_resultExtents {P : ℕ → Prop} (hP : ∀ a b, a ≤ b → P b → P a)
    (hvalid : List.Forall₂ Slice.Valid slices (extents.map Extent.value))
    (h : ∀ e ∈ extents.map Extent.value, P e) :
    ∀ e ∈ (resultExtents slices extents).map Extent.value, P e := by
  induction slices generalizing extents with
  | nil => exact List.forall_mem_nil _
  | cons s ss ih =>
    obtain ⟨size, sizes, hs, hss, hsizes⟩ := List.forall₂_cons_left_iff.mp hvalid
    obtain ⟨e, es, rfl, rfl, rfl⟩ := List.map_eq_cons_iff.mp hsizes
    obtain ⟨hfirst, hrest⟩ := List.forall_mem_cons.mp h
    have htail := ih hss hrest
    cases s with
    | scalar i => exact htail
    | pair a b =>
      exact List.forall_mem_cons.mpr ⟨hP _ _ ((Nat.sub_le b a).trans hs.2) hfirst, htail⟩
    | staticPair a b =>
      exact List.forall_mem_cons.mpr ⟨hP _ _ ((Nat.sub_le b a).trans hs.2) hfirst, htail⟩
    | full => exact List.forall_mem_cons.mpr ⟨hfirst, htail⟩

/-- The last element of a slice is one of the source. -/
theorem start_add_greatest_le {ws : List ℕ} (hws : slices.length = ws.length)
    (hvalid : List.Forall₂ Slice.Valid slices (extents.map Extent.value))
    (hpos : ∀ e ∈ (resultExtents slices extents).map Extent.value, 0 < e) :
    dot (slices.map Slice.start) ws +
        greatest ((resultExtents slices extents).map Extent.value) (kept slices ws) ≤
      greatest (extents.map Extent.value) ws := by
  have hlast := inRange_greatest hpos
  have hextents : slices.length = extents.length := by
    rw [hvalid.length_eq, List.length_map]
  have hlength : (((resultExtents slices extents).map Extent.value).map (· - 1)).length =
      (kept slices ws).length := by
    rw [List.length_map, List.length_map, resultExtents]
    exact length_kept (by rw [List.length_zipWith, ← hextents, min_self]) hws
  rw [greatest, ← dot_compose hws hlength]
  exact dot_le_greatest (inRange_compose hvalid hlast) ws

/-! ## The span of the result -/

variable {src sub : MdSpan T} {ws : List ℤ} {start : ℤ}

/-- A result with elements ends inside the span of the source. -/
theorem start_add_span_le (hvalid : List.Forall₂ Slice.Valid slices src.mapping.sizes)
    (hexact : src.mapping.ExactStrides) (h : IsSlice src sub slices ws start)
    (hpos : 0 ∉ sub.mapping.sizes) :
    dot (slices.map Slice.start) src.mapping.weights + sub.mapping.span ≤ src.mapping.span := by
  have hlength : slices.length = src.mapping.weights.length := by
    rw [length_of_valid hvalid, Mapping.length_weights]
  have hpos' := Mapping.pos_of_not_mem hpos
  rw [h.sizes_eq] at hpos'
  have hin := inRange_starts hvalid hpos'
  have hsource : 0 ∉ src.mapping.sizes := fun hzero => not_inRange_of_zero hzero hin
  have hle : dot (slices.map Slice.start) src.mapping.weights + _ ≤
      greatest src.mapping.sizes src.mapping.weights := start_add_greatest_le hlength hvalid hpos'
  rw [Mapping.span_of_pos hpos, Mapping.span_of_pos hsource, h.sizes_eq, h.keptWeights hexact]
  omega

/-- The span of a result is representable where that of the source is. -/
theorem span_fits_of_isSlice (hvalid : List.Forall₂ Slice.Valid slices src.mapping.sizes)
    (hexact : src.mapping.ExactStrides) (h : IsSlice src sub slices ws start)
    (hspan : T.Fits src.mapping.span) : T.Fits sub.mapping.span := by
  by_cases hzero : 0 ∈ sub.mapping.sizes
  · rw [Mapping.span_of_zero hzero]
    exact T.fits_zero
  · have hle := start_add_span_le hvalid hexact h hzero
    exact IntegerType.fits_of_le_nat ((Nat.le_add_left _ _).trans hle) hspan

/-- In a representable span every index has an offset. -/
theorem offset_of_span {a : MdSpan T} {js : List ℕ} (hT : T.width ≤ 64)
    (hnonneg : a.mapping.NonnegStrides) (hspan : T.Fits a.mapping.span)
    (hjs : InRange js a.mapping.sizes) :
    a.mapping.offset js = some ((dot js a.mapping.weights : ℕ) : ℤ) := by
  have hpos : 0 ∉ a.mapping.sizes := fun hzero => not_inRange_of_zero hzero hjs
  have hle := dot_le_greatest hjs a.mapping.weights
  rw [Mapping.span_of_pos hpos] at hspan
  exact Mapping.offset_eq hT hnonneg hjs
    (IntegerType.fits_of_le_nat (hle.trans (Nat.le_add_left _ 1)) hspan)

/-- Slices that leave elements have a result, which starts at an element. -/
theorem exists_isSlice_of_pos (hT : T.width ≤ 64)
    (hvalid : List.Forall₂ Slice.Valid slices src.mapping.sizes)
    (hnonneg : src.mapping.NonnegStrides) (hspan : T.Fits src.mapping.span)
    (hin : InRange (slices.map Slice.start) src.mapping.sizes) :
    src.mapping.ExactStrides ∧ ∃ sub, submdspan src slices = some sub ∧
      IsSlice src sub slices (src.mapping.weights.map Nat.cast)
        (dot (slices.map Slice.start) src.mapping.weights : ℕ) := by
  have hsource : 0 ∉ src.mapping.sizes := fun hzero => not_inRange_of_zero hzero hin
  have hexact := Mapping.exactStrides_of_span hsource hnonneg hspan
  exact ⟨hexact, exists_isSlice hT (length_of_valid hvalid) hexact
    (offset_of_span hT hnonneg hspan hin)⟩

/-- The start of a result, as the index type computes it. -/
theorem IsSlice.start_eq (hT : T.width ≤ 64) (hnonneg : src.mapping.NonnegStrides)
    (h : IsSlice src sub slices ws start) :
    start = T.convert (dot (slices.map Slice.start) src.mapping.weights : ℕ) := by
  obtain ⟨hfits, hmod⟩ := Mapping.offset_modEq hT hnonneg h.offset
  exact IntegerType.eq_convert_of_modEq hfits hmod

/-- Nothing overflows in an unsigned type: there is a result. -/
theorem exists_submdspan (hT : T.width ≤ 64) (hunsigned : T.promote.signed = false)
    (hvalid : List.Forall₂ Slice.Valid slices src.mapping.sizes) :
    ∃ sub, submdspan src slices = some sub := by
  have hlength := length_of_valid hvalid
  obtain ⟨ws, hws⟩ := Mapping.exists_strides hunsigned src.mapping
  obtain ⟨start, hstart⟩ := @Mapping.exists_offset T src.mapping hunsigned
    (slices.map Slice.start) (by rw [List.length_map, hlength])
  obtain ⟨sub, hsub, -⟩ := exists_isSlice hT hlength hws hstart
  exact ⟨sub, hsub⟩

/-- Where the result of slices is inside the span of the source: always, if it
has elements; else its span is zero, and it is inside exactly if its start is,
as the index type computes that. -/
theorem submdspan_inside (hT : T.width ≤ 64)
    (hvalid : List.Forall₂ Slice.Valid slices src.mapping.sizes)
    (hnonneg : src.mapping.NonnegStrides) (hextents : ∀ e ∈ src.mapping.sizes, T.Fits e)
    (hspan : T.Fits src.mapping.span) :
    (0 ∉ (resultExtents slices src.mapping.extents).map Extent.value →
      ∃ sub, submdspan src slices = some sub ∧
        src.mapping.requiredSpanSize = some (src.mapping.span : ℤ) ∧
        sub.mapping.requiredSpanSize = some (sub.mapping.span : ℤ) ∧
        sub.dataHandle + sub.mapping.span ≤ src.dataHandle + src.mapping.span) ∧
    (0 ∈ (resultExtents slices src.mapping.extents).map Extent.value →
      ∀ sub, submdspan src slices = some sub →
        let start := IntegerType.size.convert
          (T.convert (dot (slices.map Slice.start) src.mapping.weights : ℕ))
        (∀ size, sub.mapping.requiredSpanSize = some size → size = 0) ∧
        (∀ size, src.mapping.requiredSpanSize = some size → size = src.mapping.span) ∧
        sub.dataHandle = src.dataHandle + start ∧
        (sub.dataHandle + 0 ≤ src.dataHandle + src.mapping.span ↔ start ≤ src.mapping.span) ∧
        (InRange (slices.map Slice.start) src.mapping.sizes →
          sub.dataHandle + 0 ≤ src.dataHandle + src.mapping.span)) ∧
    (T.promote.signed = false → ∃ sub, submdspan src slices = some sub) := by
  have hresult_fit : ∀ e ∈ (resultExtents slices src.mapping.extents).map Extent.value,
      T.Fits e :=
    forall_resultExtents (fun a b hab hb => IntegerType.fits_of_le_nat hab hb) hvalid hextents
  refine ⟨?_, ?_, fun hunsigned => exists_submdspan hT hunsigned hvalid⟩
  · intro hpos
    have hin := inRange_starts hvalid (Mapping.pos_of_not_mem hpos)
    have hsource : 0 ∉ src.mapping.sizes := fun hzero => not_inRange_of_zero hzero hin
    obtain ⟨hexact, sub, hsub, hslice⟩ := exists_isSlice_of_pos hT hvalid hnonneg hspan hin
    rw [← hslice.sizes_eq] at hpos hresult_fit
    have hsub_fits := span_fits_of_isSlice hvalid hexact hslice hspan
    have hle := start_add_span_le hvalid hexact hslice hpos
    refine ⟨sub, hsub, Mapping.requiredSpanSize_eq hsource hnonneg hextents hspan,
      Mapping.requiredSpanSize_eq hpos (hslice.exactStrides hexact).nonneg hresult_fit hsub_fits,
      ?_⟩
    rw [hslice.dataHandle_eq hT hnonneg]
    omega
  · intro hzero sub hsub start
    obtain ⟨ws, first, hslice⟩ := isSlice_of_submdspan hT (length_of_valid hvalid) hsub
    have hfirst := hslice.start_eq hT hnonneg
    have hhandle : sub.dataHandle = src.dataHandle + start := by
      rw [hslice.dataHandle, hfirst]
    have hiff : sub.dataHandle + 0 ≤ src.dataHandle + src.mapping.span ↔
        start ≤ src.mapping.span := by
      rw [hhandle, Int.add_zero]
      exact Int.add_le_add_iff_left _
    rw [← hslice.sizes_eq] at hzero hresult_fit
    refine ⟨fun size h => Mapping.eq_zero_of_requiredSpanSize hzero hresult_fit h,
      fun size h => Mapping.eq_span_of_requiredSpanSize hnonneg hextents hspan h, hhandle, hiff,
      fun hin => hiff.mpr ?_⟩
    have hsource : 0 ∉ src.mapping.sizes := fun hzero => not_inRange_of_zero hzero hin
    have hle := dot_le_greatest hin src.mapping.weights
    rw [Mapping.span_of_pos hsource] at hspan ⊢
    have hfits : T.Fits (dot (slices.map Slice.start) src.mapping.weights : ℕ) :=
      IntegerType.fits_of_le_nat (hle.trans (Nat.le_add_left _ 1)) hspan
    have hstart : start = (dot (slices.map Slice.start) src.mapping.weights : ℕ) := by
      have hconvert := IntegerType.convert_of_fits hfits
      have hsize := IntegerType.size_fits hT (Int.natCast_nonneg _) hfits
      exact (congrArg IntegerType.size.convert hconvert).trans (IntegerType.convert_of_fits hsize)
    rw [hstart]
    omega

/-- The last two of three rows, and in each of them the last column; and no row
at all, from the end on. -/
theorem submdspan_inside_rows :
    (∃ sub, submdspan (T := .int) ⟨5, .right [.dynamic 3, .static 4]⟩ [.pair 1 3, .pair 3 4] =
        some sub ∧
      sub.dataHandle + sub.mapping.span ≤ 5 + 12) ∧
    ∀ sub, submdspan (T := .int) ⟨5, .right [.dynamic 3, .static 4]⟩ [.pair 3 3, .full] =
        some sub →
      sub.dataHandle + 0 ≤ 5 + 12 := by
  have hvalid : List.Forall₂ Slice.Valid [.pair 1 3, .pair 3 4]
      (MdSpan.mk (T := .int) 5 (.right [.dynamic 3, .static 4])).mapping.sizes := by
    simp [Slice.Valid, Mapping.sizes, Mapping.extents, Extent.value]
  have hvalid' : List.Forall₂ Slice.Valid [.pair 3 3, .full]
      (MdSpan.mk (T := .int) 5 (.right [.dynamic 3, .static 4])).mapping.sizes := by
    simp [Slice.Valid, Mapping.sizes, Mapping.extents, Extent.value]
  have h := submdspan_inside (by decide) hvalid trivial (by decide) (by decide)
  have h' := submdspan_inside (by decide) hvalid' trivial (by decide) (by decide)
  obtain ⟨sub, hsub, -, -, hle⟩ := h.1 (by decide)
  refine ⟨⟨sub, hsub, hle⟩, fun sub hsub => ?_⟩
  exact (h'.2.1 (by decide) sub hsub).2.2.2.1.mpr (by decide)

/-- Empty pairs at the end of both dimensions start beyond the span; and a span
that is not representable says nothing of the slices. -/
theorem submdspan_not_inside :
    (∃ sub, List.Forall₂ Slice.Valid [.pair 2 2, .pair 3 3]
        (Mapping.right (T := .int) [.dynamic 2, .dynamic 3]).sizes ∧
      submdspan (T := .int) ⟨0, .right [.dynamic 2, .dynamic 3]⟩ [.pair 2 2, .pair 3 3] =
        some sub ∧
      sub.mapping.requiredSpanSize = some 0 ∧
      (Mapping.right (T := .int) [.dynamic 2, .dynamic 3]).requiredSpanSize = some 6 ∧
      sub.dataHandle = 9) ∧
    let uint8 : IntegerType := ⟨false, 8, by decide⟩
    ∃ sub, List.Forall₂ Slice.Valid [.full, .pair 0 15]
        (Mapping.left (T := uint8) [.dynamic 16, .dynamic 16]).sizes ∧
      submdspan (T := uint8) ⟨0, .left [.dynamic 16, .dynamic 16]⟩ [.full, .pair 0 15] =
        some sub ∧
      sub.mapping.requiredSpanSize = some 240 ∧
      (Mapping.left (T := uint8) [.dynamic 16, .dynamic 16]).requiredSpanSize = some 0 ∧
      sub.dataHandle = 0 := by
  refine ⟨⟨⟨9, .stride [.dynamic 0, .dynamic 0] [3, 1] rfl (by decide)⟩, ?_, by decide, by decide,
    by decide, rfl⟩, ⟨0, .left [.dynamic 16, .dynamic 15]⟩, ?_, by decide, by decide, by decide,
    rfl⟩
  · simp [Slice.Valid, Mapping.sizes, Mapping.extents, Extent.value]
  · simp [Slice.Valid, Mapping.sizes, Mapping.extents, Extent.value]

/-- A start that wraps around: 300 by the strides. -/
example : (submdspan (T := ⟨false, 8, by decide⟩) ⟨0, .left [.dynamic 100, .dynamic 2]⟩
    [.pair 100 100, .pair 2 2]).map MdSpan.dataHandle = some 44 := by decide

end Libhipcxx.Mdspan
