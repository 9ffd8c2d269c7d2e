import Libhipcxx.Mdspan.Slices
import Libhipcxx.Mdspan.Bijection

/-!
# The meaning of submdspan

An index of the result addresses the element of the composed index of the
source, whichever layout the result has.
-/

namespace Libhipcxx.Mdspan

open MixedRadix

theorem mapM_eq_some_iff {α β : Type} {f : α → Option β} {as : List α}
    {bs : List β} : as.mapM f = some bs ↔ as.map f = bs.map some := by
  induction as generalizing bs with
  | nil =>
    rw [List.mapM_nil, List.map_nil, eq_comm (a := []), List.map_eq_nil_iff]
    exact Option.some_inj.trans eq_comm
  | cons a as ih =>
    cases bs with
    | nil => simp [Option.bind_eq_some_iff]
    | cons b bs => simp [Option.bind_eq_some_iff, ih]

theorem exists_mapM {α β : Type} {f : α → Option β} {as : List α}
    (h : ∀ a ∈ as, ∃ b, f a = some b) : ∃ bs, as.mapM f = some bs := by
  induction as with
  | nil => exact ⟨[], rfl⟩
  | cons a as ih =>
    obtain ⟨⟨b, hb⟩, htail⟩ := List.forall_mem_cons.mp h
    obtain ⟨bs, hbs⟩ := ih htail
    refine ⟨b :: bs, ?_⟩
    rw [List.mapM_cons, hb, hbs]
    rfl

/-! ## Mappings by strides -/

namespace Mapping

variable {T : IntegerType}

/-- The values of the extents. -/
def sizes (mapping : Mapping T) : List ℕ := mapping.extents.map Extent.value

/-- The weights of the indices in an offset. -/
def weights : Mapping T → List ℕ
  | left extents => MixedRadix.weights (extents.map Extent.value)
  | right extents => topWeights (extents.map Extent.value)
  | stride _ strides _ _ => strides.map Int.toNat

/-- No stored stride is negative. -/
def NonnegStrides : Mapping T → Prop
  | left _ => True
  | right _ => True
  | stride _ strides _ _ => ∀ s ∈ strides, 0 ≤ s

/-- No stride is negative or overflows. -/
def ExactStrides (mapping : Mapping T) : Prop :=
  mapping.strides = some (mapping.weights.map Nat.cast)

variable {mapping : Mapping T}

theorem length_weights (mapping : Mapping T) : mapping.weights.length = mapping.rank := by
  cases mapping with
  | left es => simp [weights, rank, extents]
  | right es => simp [weights, rank, extents]
  | stride _ _ h _ => simpa [weights, rank, extents] using h

theorem strides_eq_some_iff {strides : List ℤ} :
    mapping.strides = some strides ↔
      strides.length = mapping.rank ∧
        ∀ r < mapping.rank, mapping.strideAt r = strides[r]? := by
  rw [Mapping.strides, mapM_eq_some_iff]
  constructor
  · intro h
    have hlength : strides.length = mapping.rank := by
      simpa using (congrArg List.length h).symm
    refine ⟨hlength, fun r hr => ?_⟩
    have hentry := congrArg (·[r]?) h
    have hr' : r < strides.length := by rwa [hlength]
    simpa [hr, hr'] using hentry
  · rintro ⟨hlength, h⟩
    refine List.ext_getElem (by simp [hlength]) fun r hr hr' => ?_
    have hr'' : r < strides.length := by simpa using hr'
    simpa [hr''] using h r (by simpa using hr)

/-- The strides that a mapping returns are of the index type. -/
theorem strides_fit {strides : List ℤ} (h : mapping.strides = some strides) :
    ∀ s ∈ strides, T.Fits s := by
  intro s hs
  obtain ⟨hlength, hstrides⟩ := strides_eq_some_iff.mp h
  obtain ⟨r, hr, rfl⟩ := List.mem_iff_getElem.mp hs
  have hstride := hstrides r (by rwa [← hlength])
  rw [List.getElem?_eq_getElem hr] at hstride
  cases mapping with
  | left es => exact (modEq_of_foldlM T.fits_one hstride).1
  | right es => exact (modEq_of_foldlM T.fits_one hstride).1
  | stride es ws hws hfit => exact hfit _ (List.mem_of_getElem? hstride)

theorem strides_stride {es : List Extent} {ws : List ℤ} {hlength : ws.length = es.length}
    {hfit : ∀ w ∈ ws, T.Fits w} : (stride es ws hlength hfit).strides = some ws :=
  strides_eq_some_iff.mpr ⟨hlength, fun _ _ => rfl⟩

/-- The weights of the products are computed where they are representable. -/
theorem exactStrides_of_fits (hnonneg : mapping.NonnegStrides)
    (hfit : ∀ w ∈ mapping.weights, T.Fits w) : mapping.ExactStrides := by
  cases mapping with
  | left es =>
    refine strides_eq_some_iff.mpr ⟨by rw [List.length_map, length_weights], fun r hr => ?_⟩
    have hr' : r < (es.map Extent.value).length := by simpa [rank, extents] using hr
    rw [List.getElem?_map, weights, weights_getElem? _ hr']
    exact leftStride_eq hfit hr'
  | right es =>
    refine strides_eq_some_iff.mpr ⟨by rw [List.length_map, length_weights], fun r hr => ?_⟩
    have hr' : r < (es.map Extent.value).length := by simpa [rank, extents] using hr
    rw [List.getElem?_map, weights, topWeights_getElem? _ hr']
    exact rightStride_eq hfit hr'
  | stride es ws hws hws_fit => rw [ExactStrides, strides_stride, weights, map_cast_toNat hnonneg]

theorem ExactStrides.nonneg (h : mapping.ExactStrides) : mapping.NonnegStrides := by
  cases mapping with
  | left es => trivial
  | right es => trivial
  | stride es ws hws hfit =>
    rw [ExactStrides, strides_stride, Option.some_inj] at h
    intro s hs
    rw [h] at hs
    obtain ⟨n, -, rfl⟩ := List.mem_map.mp hs
    exact Int.natCast_nonneg n

/-- An offset is the sum of the indices by their weights, modulo the range of
the index type. -/
theorem offset_modEq (hT : T.width ≤ 64) (hnonneg : mapping.NonnegStrides) {indices : List ℕ}
    {offset : ℤ} (h : mapping.offset indices = some offset) :
    T.Fits offset ∧ offset ≡ (dot indices mapping.weights : ℕ) [ZMOD 2 ^ T.width] := by
  cases mapping with
  | left es => exact LayoutLeft.computeOffset_modEq h
  | right es => exact LayoutRight.computeOffset_modEq hT h
  | stride es ws hws hfit =>
    rw [weights, ← dotInt_cast, map_cast_toNat hnonneg]
    exact LayoutStride.callOp_modEq hT h

/-- Nothing overflows in an unsigned type. -/
theorem exists_strides (hT : T.promote.signed = false) (mapping : Mapping T) :
    ∃ strides, mapping.strides = some strides := by
  apply exists_mapM
  intro r hr
  have hrank := List.mem_range.mp hr
  cases mapping with
  | left es => exact exists_foldlM_mulAssign hT _ _
  | right es => exact exists_foldlM_mulAssign hT _ _
  | stride es ws hws hfit =>
    have hr' : r < ws.length := hws.symm ▸ hrank
    exact ⟨ws[r], List.getElem?_eq_getElem hr'⟩

theorem exists_offset (hT : T.promote.signed = false) {indices : List ℕ}
    (hlength : indices.length = mapping.rank) :
    ∃ offset, mapping.offset indices = some offset := by
  cases mapping with
  | left es =>
    exact LayoutLeft.exists_computeOffset hT (by rw [List.length_map]; exact hlength)
  | right es =>
    exact LayoutRight.exists_computeOffset hT (by rw [List.length_map]; exact hlength)
  | stride es ws hws hfit => exact LayoutStride.exists_callOp hT (hlength.trans hws.symm)

/-- An offset that fits the index type is computed without overflow. -/
theorem offset_eq (hT : T.width ≤ 64) (hnonneg : mapping.NonnegStrides) {indices : List ℕ}
    (h : InRange indices mapping.sizes) (hfits : T.Fits (dot indices mapping.weights : ℕ)) :
    mapping.offset indices = some ((dot indices mapping.weights : ℕ) : ℤ) := by
  have hsize := IntegerType.size_fits hT (Int.natCast_nonneg _) hfits
  cases mapping with
  | left es => exact LayoutLeft.computeOffset_eq h hfits
  | right es => exact LayoutRight.computeOffset_eq h hfits hsize
  | stride es ws hws hfit =>
    have hlength : indices.length = (ws.map Int.toNat).length := by
      have hrank := h.length_eq
      simp only [sizes, extents, List.length_map] at hrank
      rw [hrank, List.length_map, hws]
    have heq := LayoutStride.callOp_eq hlength hfits hsize
    rwa [map_cast_toNat hnonneg] at heq

end Mapping

/-! ## Composed indices -/

/-- A composed index is an index of the source. -/
theorem inRange_compose {slices : List Slice} {extents : List Extent}
    {js : List ℕ}
    (hvalid : List.Forall₂ Slice.Valid slices (extents.map Extent.value))
    (hjs : InRange js ((resultExtents slices extents).map Extent.value)) :
    InRange (compose slices js) (extents.map Extent.value) := by
  induction slices generalizing extents js with
  | nil =>
    rw [List.forall₂_nil_left_iff.mp hvalid]
    exact List.Forall₂.nil
  | cons s ss ih =>
    obtain ⟨size, sizes, hs, hss, hsizes⟩ := List.forall₂_cons_left_iff.mp hvalid
    obtain ⟨e, es, rfl, rfl, rfl⟩ := List.map_eq_cons_iff.mp hsizes
    rcases s.scalar_or_keeps with ⟨i, rfl⟩ | hkeeps
    · exact List.Forall₂.cons hs (ih hss hjs)
    · rw [resultExtents_cons hkeeps, List.map_cons] at hjs
      obtain ⟨j, js, hj, hrest, rfl⟩ := List.forall₂_cons_right_iff.mp hjs
      rw [compose_cons hkeeps]
      exact List.Forall₂.cons (Slice.start_add_lt hs hj hkeeps) (ih hss hrest)

/-- The offset of a composed index is the offset of the start and the index by
the strides of the kept dimensions. -/
theorem dot_compose {slices : List Slice} {ws js : List ℕ}
    (hws : slices.length = ws.length) (hjs : js.length = (kept slices ws).length) :
    dot (compose slices js) ws =
      dot (slices.map Slice.start) ws + dot js (kept slices ws) := by
  induction slices generalizing ws js with
  | nil =>
    rw [List.length_eq_zero_iff.mp hws.symm] at hjs ⊢
    rw [List.length_eq_zero_iff.mp hjs]
    rfl
  | cons s ss ih =>
    obtain ⟨w, ws, rfl⟩ := List.exists_cons_of_length_eq_add_one hws.symm
    have hws' : ss.length = ws.length := by simpa using hws
    rcases s.scalar_or_keeps with ⟨i, rfl⟩ | hs
    · rw [compose, List.map_cons, dot_cons, dot_cons, kept, ih hws' hjs]
      exact (Nat.add_assoc _ _ _).symm
    · rw [kept_cons hs] at hjs ⊢
      obtain ⟨j, js, rfl⟩ := List.exists_cons_of_length_eq_add_one hjs
      rw [compose_cons hs, List.map_cons, dot_cons, dot_cons, dot_cons,
        ih hws' (by simpa using hjs), Nat.add_mul]
      exact Nat.add_add_add_comm _ _ _ _

/-! ## Strides of the result -/

variable {T : IntegerType} {slices : List Slice}

/-- What is read off the extents behind a dimension is that of the source. -/
theorem getElem?_kept_right {α : Type} {F : List Extent → Option α} {extents : List Extent}
    {xs : List α} {n r : ℕ} (hlength : slices.length = extents.length) (hrank : xs.length = extents.length)
    (hkeeps : KeepsLast slices n)
    (hxs : ∀ r < extents.length, F (extents.drop (r + 1)) = xs[r]?)
    (hr : r < (kept slices xs).length) :
    F ((resultExtents slices extents).drop (r + 1)) = (kept slices xs)[r]? := by
  have hlength' : slices.length = xs.length := hlength.trans hrank.symm
  have hr' : n + r < extents.length := by
    rw [hkeeps.1 xs hlength', List.length_drop, hrank] at hr
    exact Nat.add_lt_of_lt_sub' hr
  rw [hkeeps.1 xs hlength', List.getElem?_drop, ← hxs (n + r) hr', hkeeps.2 extents hlength r]

theorem getElem?_kept_left {α : Type} {F : List Extent → Option α} {extents : List Extent}
    {xs : List α} {n r : ℕ} (hlength : slices.length = extents.length) (hrank : xs.length = extents.length)
    (hkeeps : KeepsFirst slices n)
    (hxs : ∀ r < extents.length, F (extents.take r) = xs[r]?)
    (hr : r < (kept slices xs).length) :
    F ((resultExtents slices extents).take r) = (kept slices xs)[r]? := by
  have hlength' : slices.length = xs.length := hlength.trans hrank.symm
  have hfirst : r < min n xs.length := by
    rwa [hkeeps.1 xs hlength', List.length_take] at hr
  obtain ⟨hn, hr'⟩ := lt_min_iff.mp hfirst
  rw [hkeeps.1 xs hlength', List.getElem?_take_of_lt hn, ← hxs r (by rwa [← hrank]),
    hkeeps.2 extents hlength r hn]

theorem length_kept_resultExtents {extents : List Extent} (hlength : slices.length = extents.length)
    {α : Type} {xs : List α} (hxs : slices.length = xs.length) :
    (kept slices xs).length = (resultExtents slices extents).length :=
  length_kept hxs (by rw [List.length_zipWith, ← hlength, min_self])

theorem kept_map {α β : Type} (f : α → β) (slices : List Slice) (xs : List α) :
    kept slices (xs.map f) = (kept slices xs).map f := by
  induction slices generalizing xs with
  | nil => rfl
  | cons s ss ih =>
    cases xs with
    | nil => cases s <;> rfl
    | cons x xs => cases s <;> simp [kept, ih]

theorem strides_right {n : ℕ} {extents : List Extent} {ws : List ℤ}
    (hlength : slices.length = extents.length) (hkeeps : KeepsLast slices n)
    (hws : (Mapping.right extents : Mapping T).strides = some ws) :
    (Mapping.right (resultExtents slices extents) : Mapping T).strides =
      some (kept slices ws) := by
  obtain ⟨hrank, hws⟩ := Mapping.strides_eq_some_iff.mp hws
  have hresult : (kept slices ws).length = (resultExtents slices extents).length :=
    length_kept_resultExtents hlength (hlength.trans hrank.symm)
  refine Mapping.strides_eq_some_iff.mpr ⟨hresult, fun r hr => ?_⟩
  have hstride (es : List Extent) (r : ℕ) : (Mapping.right es : Mapping T).strideAt r =
      ((es.drop (r + 1)).map Extent.value).reverse.foldlM (mulAssign T) 1 := by
    rw [Mapping.strideAt, LayoutRight.stride, List.map_drop]
  rw [hstride]
  exact getElem?_kept_right
    (F := fun es => (es.map Extent.value).reverse.foldlM (mulAssign T) 1) hlength hrank hkeeps
    (fun r hr => (hstride extents r).symm.trans (hws r hr)) (hresult ▸ hr)

theorem strides_left {n : ℕ} {extents : List Extent} {ws : List ℤ}
    (hlength : slices.length = extents.length) (hkeeps : KeepsFirst slices n)
    (hws : (Mapping.left extents : Mapping T).strides = some ws) :
    (Mapping.left (resultExtents slices extents) : Mapping T).strides =
      some (kept slices ws) := by
  obtain ⟨hrank, hws⟩ := Mapping.strides_eq_some_iff.mp hws
  have hresult : (kept slices ws).length = (resultExtents slices extents).length :=
    length_kept_resultExtents hlength (hlength.trans hrank.symm)
  refine Mapping.strides_eq_some_iff.mpr ⟨hresult, fun r hr => ?_⟩
  have hstride (es : List Extent) (r : ℕ) : (Mapping.left es : Mapping T).strideAt r =
      ((es.take r).map Extent.value).foldlM (mulAssign T) 1 := by
    rw [Mapping.strideAt, LayoutLeft.stride, List.map_take]
  rw [hstride]
  exact getElem?_kept_left
    (F := fun es => (es.map Extent.value).foldlM (mulAssign T) 1) hlength hrank hkeeps
    (fun r hr => (hstride extents r).symm.trans (hws r hr)) (hresult ▸ hr)

/-- Whether the layout is kept or not, the strides of the result are those of
the kept dimensions of the source. -/
theorem strides_makeLayoutMapping {mapping : Mapping T} {h : Handler T} {ws : List ℤ}
    (hlength : slices.length = mapping.rank) (hws : mapping.strides = some ws)
    (hanalysis : h.analysis =
      slices.foldl Analysis.encounter (Analysis.ofLayout mapping.layout))
    (hexts : h.exts = resultExtents slices mapping.extents)
    (hstrides : h.strides = kept slices ws) :
    h.makeLayoutMapping.strides = some (kept slices ws) := by
  have hstride : h.analysis.layoutType = .stride →
      h.makeLayoutMapping.strides = some (kept slices ws) := by
    intro hlayout
    rw [Handler.makeLayoutMapping, hlayout, Mapping.strides_stride, hstrides]
  cases mapping with
  | left es =>
    rcases layoutType_left slices true true with hlayout | hlayout
    · obtain ⟨n, hn⟩ := exists_keepsFirst hlayout
      rw [Handler.makeLayoutMapping, hanalysis]
      simp only [Mapping.layout, Analysis.ofLayout, hlayout, hexts]
      exact strides_left hlength hn hws
    · exact hstride (hanalysis ▸ hlayout)
  | right es =>
    rcases layoutType_right slices true true with hlayout | hlayout
    · obtain ⟨n, hn⟩ := exists_keepsLast hlayout
      rw [Handler.makeLayoutMapping, hanalysis]
      simp only [Mapping.layout, Analysis.ofLayout, hlayout, hexts]
      exact strides_right hlength hn hws
    · exact hstride (hanalysis ▸ hlayout)
  | stride es ws' hws' _ => exact hstride (hanalysis ▸ layoutType_ignore slices)

theorem weights_right {n : ℕ} {extents : List Extent} (hlength : slices.length = extents.length)
    (hkeeps : KeepsLast slices n) :
    (Mapping.right (resultExtents slices extents) : Mapping T).weights =
      kept slices (Mapping.right extents : Mapping T).weights := by
  have hweight (es : List Extent) (r : ℕ) (hr : r < es.length) :
      (Mapping.right es : Mapping T).weights[r]? =
        some ((es.drop (r + 1)).map Extent.value).prod := by
    rw [Mapping.weights, topWeights_getElem? _ (by rwa [List.length_map]), List.map_drop]
  have hrank : (Mapping.right extents : Mapping T).weights.length = extents.length :=
    Mapping.length_weights _
  have hresult := length_kept_resultExtents hlength (hlength.trans hrank.symm)
  apply List.ext_getElem?'
  intro r hr
  rw [Mapping.length_weights, hresult] at hr
  have hr' : r < (resultExtents slices extents).length := lt_of_lt_of_eq hr (max_self _)
  rw [hweight _ r hr']
  exact getElem?_kept_right (F := fun es => some (es.map Extent.value).prod) hlength hrank hkeeps
    (fun r hr => (hweight extents r hr).symm) (hresult ▸ hr')

theorem weights_left {n : ℕ} {extents : List Extent} (hlength : slices.length = extents.length)
    (hkeeps : KeepsFirst slices n) :
    (Mapping.left (resultExtents slices extents) : Mapping T).weights =
      kept slices (Mapping.left extents : Mapping T).weights := by
  have hweight (es : List Extent) (r : ℕ) (hr : r < es.length) :
      (Mapping.left es : Mapping T).weights[r]? =
        some ((es.take r).map Extent.value).prod := by
    rw [Mapping.weights, weights_getElem? _ (by rwa [List.length_map]), List.map_take]
  have hrank : (Mapping.left extents : Mapping T).weights.length = extents.length :=
    Mapping.length_weights _
  have hresult := length_kept_resultExtents hlength (hlength.trans hrank.symm)
  apply List.ext_getElem?'
  intro r hr
  rw [Mapping.length_weights, hresult] at hr
  have hr' : r < (resultExtents slices extents).length := lt_of_lt_of_eq hr (max_self _)
  rw [hweight _ r hr']
  exact getElem?_kept_left (F := fun es => some (es.map Extent.value).prod) hlength hrank hkeeps
    (fun r hr => (hweight extents r hr).symm) (hresult ▸ hr')

/-- The weights of the result are those of the kept dimensions. -/
theorem weights_makeLayoutMapping {mapping : Mapping T} {h : Handler T}
    (hlength : slices.length = mapping.rank)
    (hanalysis : h.analysis =
      slices.foldl Analysis.encounter (Analysis.ofLayout mapping.layout))
    (hexts : h.exts = resultExtents slices mapping.extents)
    (hstrides : h.strides = kept slices (mapping.weights.map Nat.cast)) :
    h.makeLayoutMapping.weights = kept slices mapping.weights := by
  have hstride : h.analysis.layoutType = .stride →
      h.makeLayoutMapping.weights = kept slices mapping.weights := by
    intro hlayout
    have hcast : ((kept slices mapping.weights).map (Nat.cast : ℕ → ℤ)).map Int.toNat =
        kept slices mapping.weights := by
      rw [List.map_map]
      exact List.map_id _
    rw [Handler.makeLayoutMapping, hlayout, Mapping.weights, hstrides, kept_map, hcast]
  cases mapping with
  | left es =>
    rcases layoutType_left slices true true with hlayout | hlayout
    · obtain ⟨n, hn⟩ := exists_keepsFirst hlayout
      rw [Handler.makeLayoutMapping, hanalysis]
      simp only [Mapping.layout, Analysis.ofLayout, hlayout, hexts]
      exact weights_left hlength hn
    · exact hstride (hanalysis ▸ hlayout)
  | right es =>
    rcases layoutType_right slices true true with hlayout | hlayout
    · obtain ⟨n, hn⟩ := exists_keepsLast hlayout
      rw [Handler.makeLayoutMapping, hanalysis]
      simp only [Mapping.layout, Analysis.ofLayout, hlayout, hexts]
      exact weights_right hlength hn
    · exact hstride (hanalysis ▸ hlayout)
  | stride es ws' hws' _ => exact hstride (hanalysis ▸ layoutType_ignore slices)

theorem extents_makeLayoutMapping (h : Handler T) :
    h.makeLayoutMapping.extents = h.exts := by
  unfold Handler.makeLayoutMapping
  split <;> rfl

/-! ## submdspan -/

/-- No stride of the source overflows, nor the offset of one of its indices,
nor the offset where the result starts: each is computed as it is. -/
structure OffsetsFit (mapping : Mapping T) (slices : List Slice) : Prop where
  strides : mapping.ExactStrides
  offsets : ∀ indices, InRange indices mapping.sizes →
    mapping.offset indices = some ((dot indices mapping.weights : ℕ) : ℤ)
  start : mapping.offset (slices.map Slice.start) =
    some ((dot (slices.map Slice.start) mapping.weights : ℕ) : ℤ)

/-- What a result is made of: strides and start of the source, and the dimensions
that are kept. -/
structure IsSlice (src sub : MdSpan T) (slices : List Slice) (ws : List ℤ) (start : ℤ) :
    Prop where
  strides : src.mapping.strides = some ws
  offset : src.mapping.offset (slices.map Slice.start) = some start
  dataHandle : sub.dataHandle = src.dataHandle + IntegerType.size.convert start
  extents : sub.mapping.extents = resultExtents slices src.mapping.extents
  keptStrides : sub.mapping.strides = some (kept slices ws)
  keptWeights : src.mapping.ExactStrides →
    sub.mapping.weights = kept slices src.mapping.weights

variable {src sub : MdSpan T} {ws : List ℤ} {start : ℤ}

theorem exists_isSlice (hT : T.width ≤ 64) (hlength : slices.length = src.mapping.rank)
    (hws : src.mapping.strides = some ws)
    (hstart : src.mapping.offset (slices.map Slice.start) = some start) :
    ∃ sub, submdspan src slices = some sub ∧ IsSlice src sub slices ws start := by
  have hlength' : slices.length = ws.length :=
    hlength.trans (Mapping.strides_eq_some_iff.mp hws).1.symm
  obtain ⟨hanalysis, hoffsets, hexts, hstrides⟩ :=
    foldl_assign hT (Mapping.strides_fit hws) hlength hlength' (Handler.init T src.mapping.layout)
  have hresult := strides_makeLayoutMapping hlength hws hanalysis hexts hstrides
  have hextents := (extents_makeLayoutMapping _).trans hexts
  have hsub : submdspan src slices = some
      { dataHandle := src.dataHandle + IntegerType.size.convert start
        mapping := ((wrapSlices slices src.mapping.extents ws).foldl Handler.assign
          (Handler.init T src.mapping.layout)).makeLayoutMapping } := by
    refine Option.bind_eq_some_iff.mpr ⟨ws, hws, ?_⟩
    refine Option.bind_eq_some_iff.mpr ⟨start, ?_, rfl⟩
    rw [hoffsets]
    exact hstart
  refine ⟨_, hsub, hws, hstart, rfl, hextents, hresult, fun hexact => ?_⟩
  obtain rfl := Option.some.inj (hws.symm.trans hexact)
  exact weights_makeLayoutMapping hlength hanalysis hexts hstrides

/-- Every result is made so. -/
theorem isSlice_of_submdspan (hT : T.width ≤ 64) (hlength : slices.length = src.mapping.rank)
    (h : submdspan src slices = some sub) : ∃ ws start, IsSlice src sub slices ws start := by
  have hsub := h
  obtain ⟨ws, hws, h⟩ := Option.bind_eq_some_iff.mp h
  obtain ⟨start, hstart, -⟩ := Option.bind_eq_some_iff.mp h
  have hlength' : slices.length = ws.length :=
    hlength.trans (Mapping.strides_eq_some_iff.mp hws).1.symm
  obtain ⟨-, hoffsets, -⟩ := foldl_assign hT (Mapping.strides_fit hws) hlength hlength'
    (Handler.init T src.mapping.layout)
  rw [hoffsets] at hstart
  obtain ⟨sub', hsub', hslice⟩ := exists_isSlice hT hlength hws hstart
  obtain rfl := Option.some.inj (hsub.symm.trans hsub')
  exact ⟨ws, start, hslice⟩

/-- A slice of a source whose strides do not overflow is such a source. -/
theorem IsSlice.exactStrides (h : IsSlice src sub slices ws start)
    (hexact : src.mapping.ExactStrides) : sub.mapping.ExactStrides := by
  obtain rfl := Option.some.inj (h.strides.symm.trans hexact)
  rw [Mapping.ExactStrides, h.keptStrides, kept_map, h.keptWeights hexact]

theorem IsSlice.sizes_eq (h : IsSlice src sub slices ws start) :
    sub.mapping.sizes = (resultExtents slices src.mapping.extents).map Extent.value := by
  rw [Mapping.sizes, h.extents]

theorem length_of_valid (hvalid : List.Forall₂ Slice.Valid slices src.mapping.sizes) :
    slices.length = src.mapping.rank := by
  rw [hvalid.length_eq, Mapping.sizes, List.length_map]
  rfl

/-- An index of a result stands for the composed index of the source. -/
theorem IsSlice.dot_compose_eq (h : IsSlice src sub slices ws start)
    (hexact : src.mapping.ExactStrides)
    (hvalid : List.Forall₂ Slice.Valid slices src.mapping.sizes) {js : List ℕ}
    (hjs : InRange js sub.mapping.sizes) :
    InRange (compose slices js) src.mapping.sizes ∧
      dot (compose slices js) src.mapping.weights =
        dot (slices.map Slice.start) src.mapping.weights + dot js sub.mapping.weights := by
  have hlength : slices.length = src.mapping.weights.length :=
    (length_of_valid hvalid).trans src.mapping.length_weights.symm
  have hweights := h.keptWeights hexact
  have hjs_length : js.length = (kept slices src.mapping.weights).length := by
    rw [← hweights, Mapping.length_weights, hjs.length_eq, Mapping.sizes, List.length_map]
    rfl
  rw [h.sizes_eq] at hjs
  exact ⟨inRange_compose hvalid hjs, hweights ▸ dot_compose hlength hjs_length⟩

/-- A start that does not overflow is added as it is. -/
theorem IsSlice.dataHandle_eq {n : ℕ} (hT : T.width ≤ 64)
    (hnonneg : src.mapping.NonnegStrides) (h : IsSlice src sub slices ws n) :
    sub.dataHandle = src.dataHandle + n := by
  have hfits := (Mapping.offset_modEq hT hnonneg h.offset).1
  rw [h.dataHandle,
    IntegerType.convert_of_fits (IntegerType.size_fits hT (Int.natCast_nonneg n) hfits)]

/-- The result has the extents of the slices that are not scalars and the
strides of the source, and addresses the elements of the composed indices. -/
theorem submdspan_addresses (hT : T.width ≤ 64)
    (hvalid : List.Forall₂ Slice.Valid slices src.mapping.sizes)
    (hfit : OffsetsFit src.mapping slices) :
    ∃ sub, submdspan src slices = some sub ∧
      sub.mapping.extents = resultExtents slices src.mapping.extents ∧
      (∀ js, InRange js sub.mapping.sizes →
        ∃ offset target, sub.mapping.offset js = some offset ∧
          src.mapping.offset (compose slices js) = some target ∧
          sub.dataHandle + offset = src.dataHandle + target) ∧
      ∀ ws, src.mapping.strides = some ws → sub.mapping.strides = some (kept slices ws) := by
  have hnonneg := hfit.strides.nonneg
  obtain ⟨sub, hsub, hslice⟩ :=
    exists_isSlice hT (length_of_valid hvalid) hfit.strides hfit.start
  refine ⟨sub, hsub, hslice.extents, ?_, ?_⟩
  · intro js hjs
    obtain ⟨hin, hsplit⟩ := hslice.dot_compose_eq hfit.strides hvalid hjs
    have htarget := hfit.offsets _ hin
    have htarget_fits := (Mapping.offset_modEq hT hnonneg htarget).1
    rw [hsplit] at htarget htarget_fits
    have hoffset_fits : T.Fits (dot js sub.mapping.weights : ℕ) :=
      IntegerType.fits_of_le_nat (Nat.le_add_left _ _) htarget_fits
    have hoffset :=
      Mapping.offset_eq hT (hslice.exactStrides hfit.strides).nonneg hjs hoffset_fits
    refine ⟨_, _, hoffset, htarget, ?_⟩
    rw [hslice.dataHandle_eq hT hnonneg, Nat.cast_add, Int.add_assoc]
  · intro ws hws
    obtain rfl := Option.some.inj (hfit.strides.symm.trans hws)
    exact hslice.keptStrides

theorem submdspan_addresses_scalar_pair_full :
    ∃ sub, submdspan (T := .int) ⟨5, .right [.dynamic 2, .static 3, .dynamic 4]⟩
        [.scalar 1, .pair 1 3, .full] = some sub ∧
      sub.mapping.extents = [.dynamic 2, .dynamic 4] ∧
      ∃ offset, sub.mapping.offset [1, 3] = some offset ∧ sub.dataHandle + offset = 5 + 23 := by
  have hfit : OffsetsFit (T := .int) (.right [.dynamic 2, .static 3, .dynamic 4])
      [.scalar 1, .pair 1 3, .full] := by
    have hexact : Mapping.ExactStrides (T := .int) (.right [.dynamic 2, .static 3, .dynamic 4]) := by
      unfold Mapping.ExactStrides
      decide
    refine ⟨hexact, ?_, by decide⟩
    intro indices hin
    have hfits : IntegerType.int.Fits (dot indices (topWeights [2, 3, 4]) : ℕ) :=
      IntegerType.fits_of_le_nat (dot_topWeights_lt hin).le (by decide)
    exact Mapping.offset_eq (by decide) hexact.nonneg hin hfits
  obtain ⟨sub, hsub, hextents, haddress, -⟩ :=
    @submdspan_addresses .int [.scalar 1, .pair 1 3, .full]
      ⟨5, .right [.dynamic 2, .static 3, .dynamic 4]⟩ (by decide)
      (by simp [Slice.Valid, Mapping.sizes, Mapping.extents, Extent.value]) hfit
  have hin : InRange [1, 3] sub.mapping.sizes := by
    rw [Mapping.sizes, hextents]
    simp [resultExtents, kept, Slice.extent, Mapping.extents, Extent.value]
  obtain ⟨offset, target, hoffset, htarget, hsum⟩ := haddress [1, 3] hin
  refine ⟨sub, hsub, hextents, offset, hoffset, hsum.trans ?_⟩
  have htarget' : some (23 : ℤ) = some target := htarget
  rw [← Option.some.inj htarget']

end Libhipcxx.Mdspan
