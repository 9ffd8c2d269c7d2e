import Libhipcxx.Mdspan.Mapping
import Libhipcxx.Support.IntegerType
import Libhipcxx.Support.NestedWeights
import Mathlib.Algebra.BigOperators.Ring.List
import Mathlib.Algebra.Order.BigOperators.Group.List

/-!
# layout_stride over an index type

The arithmetic of `layout_stride` takes place in the index type after
promotion, and its results are converted back.  A zero extent ends the loop of
`required_span_size`, but only when the loop comes to it: the terms of the
extents before have been computed by then.
-/

namespace Libhipcxx.Mdspan

open MixedRadix

/-- A `layout_stride` mapping over an index type. -/
structure StrideMapping (T : IntegerType) where
  extents : List ℕ
  strides : List ℤ
  length_eq : strides.length = extents.length
  extents_fit : ∀ e ∈ extents, T.Fits e
  strides_fit : ∀ s ∈ strides, T.Fits s

namespace StrideMapping

variable {T : IntegerType}

/-- The loop of `required_span_size`, from a value of `__span_size` on. -/
def spanSizeLoop (T : IntegerType) : ℤ → List (ℕ × ℤ) → Option ℤ
  | span, [] => some span
  | span, (extent, stride) :: dims =>
    -- Return early if any of the extents are zero.
    if extent = 0 then some 0
    else do
      let less ← T.promote.arith (extent - 1)
      let term ← T.promote.arith (T.convert less * stride)
      let sum ← T.promote.arith (span + term)
      spanSizeLoop T (T.convert sum) dims

def requiredSpanSize (m : StrideMapping T) : Option ℤ :=
  spanSizeLoop T 1 (m.extents.zip m.strides)

/-- `e0 * (e1 * (… * 1))`. -/
def foldTimesRight (T : IntegerType) : List ℕ → Option ℤ
  | [] => some 1
  | extent :: extents => do
    let rest ← foldTimesRight T extents
    T.promote.arith (extent * rest)

/-- `__get_size`. -/
def getSize (m : StrideMapping T) : Option ℤ := do
  let size ← foldTimesRight T m.extents
  return T.convert size

def isExhaustive (m : StrideMapping T) : Option Bool := do
  let span ← m.requiredSpanSize
  let size ← m.getSize
  return span == size

/-- `operator()`. -/
def offset (m : StrideMapping T) (indices : List ℕ) : Option ℤ :=
  LayoutStride.callOp T m.strides indices

/-! ## What the documentation asks for -/

/-- The strides where none is negative. -/
def weights (m : StrideMapping T) : List ℕ := m.strides.map Int.toNat

/-- REQUIRED-SPAN-SIZE. -/
def spanSize (m : StrideMapping T) : ℕ :=
  if 0 ∈ m.extents then 0 else 1 + greatest m.extents m.weights

/-- The preconditions of the constructor from extents and strides. -/
structure Precondition (m : StrideMapping T) : Prop where
  strides_pos : ∀ s ∈ m.strides, 0 < s
  span_fits : T.Fits m.spanSize
  nested : Nested m.extents m.weights

/-- The in-range indices have different offsets, `required_span_size` is zero
or follows the greatest offset, and `is_exhaustive` tells whether every offset
below it is that of an index. -/
structure Correct (m : StrideMapping T) : Prop where
  defined : ∀ indices, InRange indices m.extents → ∃ o, m.offset indices = some o
  unique : Set.InjOn m.offset {indices | InRange indices m.extents}
  span : ∃ span, m.requiredSpanSize = some span ∧
    (0 ∈ m.extents → span = 0) ∧
    (0 ∉ m.extents → IsGreatest
      {o | ∃ indices, InRange indices m.extents ∧ m.offset indices = some o} (span - 1)) ∧
    ∃ answer, m.isExhaustive = some answer ∧
      (answer = true ↔ ∀ o, 0 ≤ o → o < span →
        ∃ indices, InRange indices m.extents ∧ m.offset indices = some o)

/-! ## When the loop has a result -/

/-- The terms of dimensions without a zero extent. -/
def reach (dims : List (ℕ × ℤ)) : ℤ := (dims.map fun d => ((d.1 : ℤ) - 1) * d.2).sum

/-- No term overflows, nor the sum up to it, in the dimensions before the first
zero extent. -/
def SpanStepsFit (T : IntegerType) (span : ℤ) (dims : List (ℕ × ℤ)) : Prop :=
  ∀ front (extent : ℕ) (stride : ℤ) back, dims = front ++ (extent, stride) :: back →
    (∀ d ∈ front, d.1 ≠ 0) → extent ≠ 0 →
    T.promote.Computes (((extent : ℤ) - 1) * stride) ∧
      T.promote.Computes (T.convert (span + reach front) + ((extent : ℤ) - 1) * stride)

/-- No product of the last extents overflows. -/
def SizeStepsFit (T : IntegerType) (extents : List ℕ) : Prop :=
  ∀ back, back <:+ extents → T.promote.Computes (back.prod : ℕ)

/-- `required_span_size` and `is_exhaustive` do not overflow. -/
def StepsFit (m : StrideMapping T) : Prop :=
  SpanStepsFit T 1 (m.extents.zip m.strides) ∧ SizeStepsFit T m.extents

variable {span stride r : ℤ} {extent : ℕ} {dims : List (ℕ × ℤ)} {extents ws indices : List ℕ}

theorem spanStepsFit_cons :
    SpanStepsFit T span ((extent, stride) :: dims) ↔ (extent ≠ 0 →
      T.promote.Computes (((extent : ℤ) - 1) * stride) ∧
      T.promote.Computes (T.convert span + ((extent : ℤ) - 1) * stride) ∧
      SpanStepsFit T (span + ((extent : ℤ) - 1) * stride) dims) := by
  constructor
  · intro h hextent
    obtain ⟨hterm, hsum⟩ := h [] extent stride dims rfl nofun hextent
    rw [reach, List.map_nil, List.sum_nil, Int.add_zero] at hsum
    refine ⟨hterm, hsum, ?_⟩
    intro front e s back hdims hfront he
    have hrest := h ((extent, stride) :: front) e s back (by rw [hdims]; rfl)
      (List.forall_mem_cons.mpr ⟨hextent, hfront⟩) he
    rwa [reach, List.map_cons, List.sum_cons, ← reach, ← Int.add_assoc] at hrest
  · intro h front e s back hdims hfront he
    cases front with
    | nil =>
      obtain ⟨hhead, rfl⟩ := List.cons.inj hdims
      obtain ⟨rfl, rfl⟩ := Prod.mk.inj hhead
      obtain ⟨hterm, hsum, -⟩ := h he
      rw [reach, List.map_nil, List.sum_nil, Int.add_zero]
      exact ⟨hterm, hsum⟩
    | cons d front =>
      obtain ⟨rfl, rfl⟩ := List.cons.inj hdims
      obtain ⟨hextent, hfront'⟩ := List.forall_mem_cons.mp hfront
      have hrest := (h hextent).2.2 front e s back rfl hfront' he
      rwa [reach, List.map_cons, List.sum_cons, ← reach, ← Int.add_assoc]

/-- One round of the loop. -/
theorem spanSizeLoop_cons (hextent : extent ≠ 0) (hfits : T.Fits extent) :
    spanSizeLoop T (T.convert span) ((extent, stride) :: dims) = some r ↔
      T.promote.Computes (((extent : ℤ) - 1) * stride) ∧
      T.promote.Computes (T.convert span + ((extent : ℤ) - 1) * stride) ∧
      spanSizeLoop T (T.convert (span + ((extent : ℤ) - 1) * stride)) dims = some r := by
  have hless : T.Fits ((extent : ℤ) - 1) :=
    IntegerType.fits_of_le (by omega) (by omega) hfits
  have hpromoted := IntegerType.fits_promote hless
  rw [spanSizeLoop, if_neg hextent, IntegerType.arith_of_fits hpromoted]
  simp only [Option.bind_eq_bind, Option.bind_some, IntegerType.convert_of_fits hless,
    Option.bind_eq_some_iff, IntegerType.arith_eq_some_iff]
  have hsum (x : ℤ) : T.convert (T.promote.convert (T.convert span + T.promote.convert x)) =
      T.convert (span + x) := by
    rw [IntegerType.convert_convert T.width_le_promote,
      IntegerType.convert_add_convert T.width_le_promote]
  constructor
  · rintro ⟨_, ⟨hterm, rfl⟩, _, ⟨hadd, rfl⟩, hrest⟩
    rw [IntegerType.computes_convert_iff (T.convert span + ·) hterm] at hadd
    rw [hsum] at hrest
    exact ⟨hterm, hadd, hrest⟩
  · rintro ⟨hterm, hadd, hrest⟩
    refine ⟨_, ⟨hterm, rfl⟩, _, ⟨?_, rfl⟩, ?_⟩
    · exact (IntegerType.computes_convert_iff (T.convert span + ·) hterm).mpr hadd
    · rwa [hsum]

/-- The loop returns the sum of the terms or, at the first zero extent, zero. -/
theorem spanSizeLoop_eq_some_iff (hfits : ∀ d ∈ dims, T.Fits d.1) :
    spanSizeLoop T (T.convert span) dims = some r ↔
      SpanStepsFit T span dims ∧
      r = if 0 ∈ dims.map Prod.fst then 0 else T.convert (span + reach dims) := by
  induction dims generalizing span with
  | nil =>
    have hnil : SpanStepsFit T span [] := by
      intro front e s back hdims
      exact absurd hdims.symm (List.append_ne_nil_of_right_ne_nil _ nofun)
    rw [spanSizeLoop, Option.some_inj, reach, List.map_nil, List.map_nil, List.sum_nil,
      Int.add_zero, if_neg List.not_mem_nil]
    exact ⟨fun h => ⟨hnil, h.symm⟩, fun h => h.2.symm⟩
  | cons d dims ih =>
    obtain ⟨extent, stride⟩ := d
    obtain ⟨hextent_fits, hfits'⟩ := List.forall_mem_cons.mp hfits
    rw [spanStepsFit_cons, List.map_cons]
    by_cases hextent : extent = 0
    · subst hextent
      rw [spanSizeLoop, if_pos rfl, if_pos List.mem_cons_self, Option.some_inj]
      exact ⟨fun h => ⟨fun hne => absurd rfl hne, h.symm⟩, fun h => h.2.symm⟩
    · have hmem : 0 ∈ extent :: dims.map Prod.fst ↔ 0 ∈ dims.map Prod.fst := by
        rw [List.mem_cons]
        exact or_iff_right (Ne.symm hextent)
      rw [spanSizeLoop_cons hextent hextent_fits, ih hfits']
      simp only [hmem, reach, List.map_cons, List.sum_cons, Int.add_assoc]
      constructor
      · rintro ⟨hterm, hsum, hrest, hr⟩
        exact ⟨fun _ => ⟨hterm, hsum, hrest⟩, hr⟩
      · rintro ⟨hsteps, hr⟩
        obtain ⟨hterm, hsum, hrest⟩ := hsteps hextent
        exact ⟨hterm, hsum, hrest, hr⟩

theorem foldTimesRight_eq_some_iff :
    foldTimesRight T extents = some r ↔
      SizeStepsFit T extents ∧ r = T.promote.convert (extents.prod : ℕ) := by
  induction extents generalizing r with
  | nil =>
    have hone : T.promote.Fits 1 := T.promote.fits_one
    have hnil : SizeStepsFit T [] := by
      intro back hback
      rw [List.suffix_nil.mp hback]
      exact IntegerType.computes_of_fits hone
    have hprod : T.promote.convert (([] : List ℕ).prod : ℕ) = 1 :=
      IntegerType.convert_of_fits hone
    rw [foldTimesRight, Option.some_inj, hprod]
    exact ⟨fun h => ⟨hnil, h.symm⟩, fun h => h.2.symm⟩
  | cons e es ih =>
    have hcons : SizeStepsFit T (e :: es) ↔
        T.promote.Computes ((e :: es).prod : ℕ) ∧ SizeStepsFit T es := by
      constructor
      · intro h
        exact ⟨h _ List.suffix_rfl, fun back hback => h back (hback.trans (List.suffix_cons e es))⟩
      · rintro ⟨hwhole, hrest⟩ back hback
        rcases List.suffix_cons_iff.mp hback with rfl | hback'
        · exact hwhole
        · exact hrest back hback'
    have hproduct : ((e :: es).prod : ℤ) = e * (es.prod : ℕ) := by
      rw [List.prod_cons, Nat.cast_mul]
    rw [foldTimesRight, hcons, hproduct]
    simp only [Option.bind_eq_bind, Option.bind_eq_some_iff, IntegerType.arith_eq_some_iff, ih]
    constructor
    · rintro ⟨_, ⟨hrest, rfl⟩, hwhole, rfl⟩
      have hlast := hrest es List.suffix_rfl
      rw [IntegerType.computes_convert_iff ((e : ℤ) * ·) hlast] at hwhole
      exact ⟨⟨hwhole, hrest⟩, IntegerType.convert_mul_convert _ _⟩
    · rintro ⟨⟨hwhole, hrest⟩, rfl⟩
      have hlast := hrest es List.suffix_rfl
      refine ⟨_, ⟨hrest, rfl⟩, ?_, (IntegerType.convert_mul_convert _ _).symm⟩
      exact (IntegerType.computes_convert_iff ((e : ℤ) * ·) hlast).mpr hwhole

/-! ## Offsets -/

theorem spanSize_of_pos {m : StrideMapping T} (h : 0 ∉ m.extents) :
    m.spanSize = 1 + greatest m.extents m.weights := if_neg h

theorem spanSize_of_zero {m : StrideMapping T} (h : 0 ∈ m.extents) : m.spanSize = 0 := if_pos h

variable {m : StrideMapping T}

theorem length_weights (m : StrideMapping T) : m.weights.length = m.extents.length := by
  rw [weights, List.length_map, m.length_eq]

theorem strides_nonneg (h : ∀ s ∈ m.strides, 0 < s) : ∀ s ∈ m.strides, 0 ≤ s :=
  fun s hs => (h s hs).le

theorem cast_weights (h : ∀ s ∈ m.strides, 0 ≤ s) : m.weights.map Nat.cast = m.strides :=
  map_cast_toNat h

/-- A representable span has representable offsets. -/
theorem fits_dot (hspan : T.Fits m.spanSize) (hin : InRange indices m.extents) :
    T.Fits (dot indices m.weights : ℕ) := by
  have hpos : 0 ∉ m.extents := fun hzero => not_inRange_of_zero hzero hin
  have hle := dot_le_greatest hin m.weights
  rw [spanSize_of_pos hpos] at hspan
  exact IntegerType.fits_of_le_nat (hle.trans (Nat.le_add_left _ 1)) hspan

theorem length_eq_weights (hin : InRange indices m.extents) :
    indices.length = m.weights.length := by
  rw [hin.length_eq, m.length_weights]

/-- The sum comes back modulo the range of `size_t`. -/
theorem offset_eq (hnonneg : ∀ s ∈ m.strides, 0 ≤ s) (hin : InRange indices m.extents)
    (hfits : T.Fits (dot indices m.weights : ℕ)) :
    m.offset indices = some
      (T.convert (IntegerType.size.convert (dot indices m.weights : ℕ))) := by
  have hsum := LayoutStride.callOpImpl_eq (length_eq_weights hin) hfits
  rw [cast_weights hnonneg] at hsum
  rw [offset, LayoutStride.callOp, hsum]
  rfl

theorem size_fits_of_lt {n : ℕ} (h : n < 2 ^ 64) : IntegerType.size.Fits n := by
  have hmax : IntegerType.size.max = 2 ^ 64 - 1 := rfl
  have hmin : IntegerType.size.min = 0 := rfl
  rw [IntegerType.Fits, hmax, hmin]
  omega

theorem offset_of_fits (hnonneg : ∀ s ∈ m.strides, 0 ≤ s) (hin : InRange indices m.extents)
    (hfits : T.Fits (dot indices m.weights : ℕ)) (hlt : dot indices m.weights < 2 ^ 64) :
    m.offset indices = some ((dot indices m.weights : ℕ) : ℤ) := by
  rw [offset_eq hnonneg hin hfits, IntegerType.convert_of_fits (size_fits_of_lt hlt),
    IntegerType.convert_of_fits hfits]

theorem offset_eq_dot (hnonneg : ∀ s ∈ m.strides, 0 ≤ s) (hspan : T.Fits m.spanSize)
    (hle : m.spanSize ≤ 2 ^ 64) (hin : InRange indices m.extents) :
    m.offset indices = some ((dot indices m.weights : ℕ) : ℤ) := by
  have hpos : 0 ∉ m.extents := fun hzero => not_inRange_of_zero hzero hin
  have hdot := dot_le_greatest hin m.weights
  apply offset_of_fits hnonneg hin (fits_dot hspan hin)
  rw [spanSize_of_pos hpos] at hle
  omega

/-! ## Spans and sizes -/

theorem zip_fst (m : StrideMapping T) : (m.extents.zip m.strides).map Prod.fst = m.extents :=
  List.map_fst_zip m.length_eq.ge

theorem reach_zip (hpos : ∀ e ∈ extents, 0 < e) (hlength : ws.length = extents.length) :
    reach (extents.zip (ws.map Nat.cast)) = (greatest extents ws : ℕ) := by
  induction extents generalizing ws with
  | nil => rfl
  | cons e es ih =>
    obtain ⟨w, ws, rfl⟩ := List.exists_cons_of_length_eq_add_one hlength
    obtain ⟨he, hes⟩ := List.forall_mem_cons.mp hpos
    have hsub : ((e - 1 : ℕ) : ℤ) = (e : ℤ) - 1 := Nat.cast_pred he
    have hrest := ih hes (Nat.succ.inj hlength)
    rw [reach] at hrest ⊢
    rw [List.map_cons, List.zip_cons_cons, List.map_cons, List.sum_cons, hrest, greatest_cons,
      Nat.cast_add, Nat.cast_mul, hsub]

theorem reach_nonneg (hpos : ∀ d ∈ dims, d.1 ≠ 0) (hnonneg : ∀ d ∈ dims, 0 ≤ d.2) :
    0 ≤ reach dims := by
  apply List.sum_nonneg
  intro x hx
  obtain ⟨d, hd, rfl⟩ := List.mem_map.mp hx
  have hd_pos := hpos d hd
  exact mul_nonneg (by omega) (hnonneg d hd)

/-- Nothing overflows before a representable span is complete. -/
theorem spanStepsFit_of_fits (hpos : ∀ d ∈ dims, d.1 ≠ 0) (hnonneg : ∀ d ∈ dims, 0 ≤ d.2)
    (hspan : 0 ≤ span) (hfits : T.Fits (span + reach dims)) : SpanStepsFit T span dims := by
  intro front extent stride back hdims hfront hextent
  have hback : ∀ d ∈ back, d ∈ dims := by
    intro d hd
    rw [hdims]
    exact List.mem_append_right front (List.mem_cons_of_mem _ hd)
  have hstride : 0 ≤ stride := by
    apply hnonneg (extent, stride)
    rw [hdims]
    exact List.mem_append_right front List.mem_cons_self
  have hsplit : reach dims = reach front + (((extent : ℤ) - 1) * stride + reach back) := by
    rw [hdims, reach, List.map_append, List.sum_append, List.map_cons, List.sum_cons]
    rfl
  have hfront_nonneg : 0 ≤ reach front := by
    apply reach_nonneg hfront
    intro d hd
    apply hnonneg
    rw [hdims]
    exact List.mem_append_left _ hd
  have hback_nonneg := reach_nonneg (fun d hd => hpos d (hback d hd))
    (fun d hd => hnonneg d (hback d hd))
  have hterm_nonneg : 0 ≤ ((extent : ℤ) - 1) * stride := mul_nonneg (by omega) hstride
  have hpart : T.Fits (span + reach front) :=
    IntegerType.fits_of_le (by omega) (by omega) hfits
  have hterm : T.Fits (((extent : ℤ) - 1) * stride) :=
    IntegerType.fits_of_le hterm_nonneg (by omega) hfits
  have hsum : T.Fits (span + reach front + ((extent : ℤ) - 1) * stride) :=
    IntegerType.fits_of_le (by omega) (by omega) hfits
  rw [IntegerType.convert_of_fits hpart]
  exact ⟨IntegerType.computes_of_fits (IntegerType.fits_promote hterm),
    IntegerType.computes_of_fits (IntegerType.fits_promote hsum)⟩

theorem requiredSpanSize_eq_some_iff {value : ℤ} :
    m.requiredSpanSize = some value ↔ SpanStepsFit T 1 (m.extents.zip m.strides) ∧
      value = if 0 ∈ m.extents then 0 else T.convert (1 + reach (m.extents.zip m.strides)) := by
  have hfits : ∀ d ∈ m.extents.zip m.strides, T.Fits d.1 :=
    fun d hd => m.extents_fit d.1 (List.of_mem_zip hd).1
  have hloop : spanSizeLoop T (T.convert 1) (m.extents.zip m.strides) = some value ↔ _ :=
    spanSizeLoop_eq_some_iff hfits
  rwa [IntegerType.convert_of_fits T.fits_one, zip_fst] at hloop

theorem getSize_eq_some_iff {value : ℤ} :
    m.getSize = some value ↔
      SizeStepsFit T m.extents ∧ value = T.convert (m.extents.prod : ℕ) := by
  have hconvert : T.convert (T.promote.convert (m.extents.prod : ℕ)) =
      T.convert (m.extents.prod : ℕ) := IntegerType.convert_convert T.width_le_promote
  simp only [getSize, Option.bind_eq_bind, Option.bind_eq_some_iff, foldTimesRight_eq_some_iff]
  constructor
  · rintro ⟨_, ⟨hsteps, rfl⟩, hvalue⟩
    rw [hconvert] at hvalue
    exact ⟨hsteps, (Option.some.inj hvalue).symm⟩
  · rintro ⟨hsteps, rfl⟩
    exact ⟨_, ⟨hsteps, rfl⟩, congrArg some hconvert⟩

theorem isExhaustive_eq {span size : ℤ} (hspan : m.requiredSpanSize = some span)
    (hsize : m.getSize = some size) : m.isExhaustive = some (span == size) := by
  rw [isExhaustive, hspan, hsize]
  rfl

theorem Precondition.weights_pos (h : m.Precondition) : ∀ w ∈ m.weights, 0 < w := by
  intro w hw
  obtain ⟨s, hs, rfl⟩ := List.mem_map.mp hw
  exact Int.pos_iff_toNat_pos.mp (h.strides_pos s hs)

/-- Where all extents are positive, the precondition is enough. -/
theorem Precondition.spans (h : m.Precondition) (hpos : 0 ∉ m.extents) :
    m.requiredSpanSize = some ((1 + greatest m.extents m.weights : ℕ) : ℤ) ∧
      m.getSize = some ((m.extents.prod : ℕ) : ℤ) := by
  have hpos' : ∀ e ∈ m.extents, 0 < e :=
    fun e he => Nat.pos_of_ne_zero fun hzero => hpos (hzero ▸ he)
  have hfits := h.span_fits
  rw [spanSize_of_pos hpos] at hfits
  have hnonneg := strides_nonneg h.strides_pos
  have hreach : 1 + reach (m.extents.zip m.strides) = (1 + greatest m.extents m.weights : ℕ) := by
    rw [← cast_weights hnonneg, reach_zip hpos' m.length_weights, Nat.cast_add, Nat.cast_one]
  constructor
  · rw [requiredSpanSize_eq_some_iff, if_neg hpos, hreach, IntegerType.convert_of_fits hfits]
    refine ⟨spanStepsFit_of_fits ?_ ?_ (by decide) (hreach ▸ hfits), rfl⟩
    · intro d hd
      exact Nat.ne_of_gt (hpos' d.1 (List.of_mem_zip hd).1)
    · intro d hd
      exact hnonneg d.2 (List.of_mem_zip hd).2
  · have hprod := prod_le_greatest h.nested h.weights_pos m.length_weights
    have hsize : T.Fits (m.extents.prod : ℕ) :=
      IntegerType.fits_of_le (by omega) (by omega) hfits
    rw [getSize_eq_some_iff, IntegerType.convert_of_fits hsize]
    refine ⟨?_, rfl⟩
    intro back hback
    have hback_pos : 0 < m.extents.prod := List.prod_pos_iff_forall_pos_nat.mpr hpos'
    obtain ⟨front, hfront⟩ := hback
    have hdvd : back.prod ∣ m.extents.prod := by
      rw [← hfront, List.prod_append]
      exact Nat.dvd_mul_left _ _
    have hle := Nat.le_of_dvd hback_pos hdvd
    apply IntegerType.computes_of_fits
    exact IntegerType.fits_promote (IntegerType.fits_of_le (by omega) (by omega) hsize)

/-! ## What the mapping is relied on for -/

theorem correct_of_pos (h : m.Precondition) (hpos : 0 ∉ m.extents) (hle : m.spanSize ≤ 2 ^ 64) :
    m.Correct := by
  have hoffset {indices : List ℕ} (hin : InRange indices m.extents) :=
    offset_eq_dot (strides_nonneg h.strides_pos) h.span_fits hle hin
  have hpos' : ∀ e ∈ m.extents, 0 < e :=
    fun e he => Nat.pos_of_ne_zero fun hzero => hpos (hzero ▸ he)
  obtain ⟨hspan, hsize⟩ := h.spans hpos
  refine ⟨fun indices hin => ⟨_, hoffset hin⟩, ?_, _, hspan, ?_, ?_, _,
    isExhaustive_eq hspan hsize, ?_⟩
  · intro indices hin indices' hin' heq
    rw [hoffset hin, hoffset hin', Option.some_inj, Nat.cast_inj] at heq
    exact dot_injOn h.nested h.weights_pos m.length_weights hin hin' heq
  · exact fun hzero => absurd hzero hpos
  · intro _
    have hlast : ((1 + greatest m.extents m.weights : ℕ) : ℤ) - 1 =
        (greatest m.extents m.weights : ℕ) := by omega
    rw [hlast]
    constructor
    · exact ⟨_, inRange_greatest hpos', hoffset (inRange_greatest hpos')⟩
    · rintro o ⟨indices, hin, ho⟩
      rw [hoffset hin] at ho
      rw [← Option.some.inj ho]
      exact Nat.cast_le.mpr (dot_le_greatest hin m.weights)
  · have himage := dot_image_eq_iff h.nested h.weights_pos m.length_weights
    rw [beq_iff_eq, Nat.cast_inj, eq_comm, ← himage]
    constructor
    · intro hall o ho hlt
      obtain ⟨k, rfl⟩ := Int.eq_ofNat_of_zero_le ho
      have hk : k ∈ Set.Iio (1 + greatest m.extents m.weights) := Int.ofNat_lt.mp hlt
      rw [← hall] at hk
      obtain ⟨indices, hin, rfl⟩ := hk
      exact ⟨indices, hin, hoffset hin⟩
    · intro hall
      apply (dot_image_subset _ _).antisymm
      intro k hk
      obtain ⟨indices, hin, ho⟩ := hall k (by omega) (Int.ofNat_lt.mpr hk)
      rw [hoffset hin, Option.some_inj, Nat.cast_inj] at ho
      exact ⟨indices, hin, ho⟩

theorem correct_of_zero (hzero : 0 ∈ m.extents) (hsteps : m.StepsFit) : m.Correct := by
  have hempty (indices : List ℕ) : ¬ InRange indices m.extents := not_inRange_of_zero hzero
  have hspan : m.requiredSpanSize = some 0 := by
    rw [requiredSpanSize_eq_some_iff, if_pos hzero]
    exact ⟨hsteps.1, rfl⟩
  have hsize : m.getSize = some 0 := by
    rw [getSize_eq_some_iff, List.prod_eq_zero hzero]
    exact ⟨hsteps.2, (IntegerType.convert_of_fits T.fits_zero).symm⟩
  refine ⟨fun indices hin => absurd hin (hempty indices), ?_, 0, hspan, fun _ => rfl,
    fun hpos => absurd hzero hpos, _, isExhaustive_eq hspan hsize, ?_⟩
  · exact fun indices hin => absurd hin (hempty indices)
  · exact iff_of_true rfl fun o ho hlt => absurd ho (not_le.mpr hlt)

/-- A `size_t` cannot hold the greatest offset of a larger span. -/
theorem Correct.spanSize_le (hm : m.Correct) (h : m.Precondition) : m.spanSize ≤ 2 ^ 64 := by
  by_cases hpos : 0 ∈ m.extents
  · rw [spanSize_of_zero hpos]
    exact Nat.zero_le _
  · by_contra hlarge
    obtain ⟨span, hspan, -, hgreatest, -⟩ := hm.span
    rw [(h.spans hpos).1] at hspan
    obtain ⟨⟨indices, hin, ho⟩, -⟩ := hgreatest hpos
    rw [offset_eq (strides_nonneg h.strides_pos) hin (fits_dot h.span_fits hin)] at ho
    have hfits := h.span_fits
    rw [spanSize_of_pos hpos] at hlarge hfits
    have hspan_eq := Option.some.inj hspan
    have hmax : IntegerType.size.max = 2 ^ 64 - 1 := rfl
    have hmin : IntegerType.size.min = 0 := rfl
    have hword := IntegerType.size.fits_convert (dot indices m.weights : ℕ)
    rw [IntegerType.Fits, hmax, hmin] at hword
    have hword_fits : T.Fits (IntegerType.size.convert (dot indices m.weights : ℕ)) :=
      IntegerType.fits_of_le hword.1 (by omega) hfits
    rw [IntegerType.convert_of_fits hword_fits] at ho
    have ho_eq := Option.some.inj ho
    omega

/-- The mapping is what its users rely on, up to 64 bits, if no extent is zero;
if one is, exactly when the steps before the zero do not overflow. -/
theorem correct_iff (h : m.Precondition) :
    m.Correct ↔ m.spanSize ≤ 2 ^ 64 ∧ (0 ∈ m.extents → m.StepsFit) := by
  constructor
  · intro hm
    refine ⟨hm.spanSize_le h, fun _ => ?_⟩
    obtain ⟨span, hspan, -, -, answer, hanswer, -⟩ := hm.span
    obtain ⟨_, hspan', hanswer'⟩ := Option.bind_eq_some_iff.mp hanswer
    obtain ⟨_, hsize, -⟩ := Option.bind_eq_some_iff.mp hanswer'
    exact ⟨(requiredSpanSize_eq_some_iff.mp hspan).1, (getSize_eq_some_iff.mp hsize).1⟩
  · rintro ⟨hle, hsteps⟩
    by_cases hzero : 0 ∈ m.extents
    · exact correct_of_zero hzero (hsteps hzero)
    · exact correct_of_pos h hzero hle

/-- Rows with padding, and an extent of one with a stride out of the way. -/
def paddedRows : StrideMapping .int where
  extents := [2, 1, 3]
  strides := [4, 100, 1]
  length_eq := rfl
  extents_fit := by decide
  strides_fit := by decide

theorem paddedRows_correct : paddedRows.Correct := by
  have hnested : Nested [2, 1, 3] [4, 100, 1] := by
    refine ⟨[(3, 1), (2, 4), (1, 100)], ?_, by decide⟩
    exact List.isPerm_iff.mp rfl
  exact (correct_iff ⟨by decide, by decide, hnested⟩).mpr ⟨by decide, fun h => absurd h (by decide)⟩

/-- The second extent is zero, and the term of the first is no `int`. -/
def lateZero : StrideMapping .int where
  extents := [65536, 0]
  strides := [65536, 1]
  length_eq := rfl
  extents_fit := by decide
  strides_fit := by decide

theorem lateZero_not_correct :
    lateZero.Precondition ∧ lateZero.requiredSpanSize = none ∧ ¬ lateZero.Correct := by
  have hnested : Nested [65536, 0] [65536, 1] := by
    refine ⟨[(0, 1), (65536, 65536)], ?_, by decide⟩
    exact List.isPerm_iff.mp rfl
  have hspan : lateZero.requiredSpanSize = none := by decide
  refine ⟨⟨by decide, by decide, hnested⟩, hspan, fun hcorrect => ?_⟩
  obtain ⟨span, hsome, -⟩ := hcorrect.span
  exact nomatch hspan.symm.trans hsome

end StrideMapping

end Libhipcxx.Mdspan
