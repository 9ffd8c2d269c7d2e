import Libhipcxx.Support.IntegerType
import Libhipcxx.Support.MixedRadix

/-!
# The layout mappings of mdspan

`layout_left` and `layout_right` compute an offset from the extents by nested
multiplication, `layout_stride` from stored strides.  Arithmetic takes place in
the index type after promotion and comes back by conversion: a value that the
index type cannot represent wraps around, and there is no result where a signed
operation overflows.  The indices are of the index type, as `submdspan` passes
them.
-/

namespace Libhipcxx.Mdspan

open MixedRadix

variable {T : IntegerType} {extents indices : List ℕ}

/-! ## Products of extents -/

/-- `__value *= __extents.extent(__r)`. -/
def mulAssign (T : IntegerType) (value : ℤ) (extent : ℕ) : Option ℤ := do
  let product ← T.promote.arith (value * extent)
  return T.convert product

/-- `required_span_size` of `layout_left` and of `layout_right`. -/
def requiredSpanSize (T : IntegerType) (extents : List ℕ) : Option ℤ :=
  extents.foldlM (mulAssign T) 1

theorem mulAssign_modEq {value result : ℤ} {extent : ℕ}
    (h : mulAssign T value extent = some result) :
    T.Fits result ∧ result ≡ value * extent [ZMOD 2 ^ T.width] := by
  obtain ⟨product, hproduct, hresult⟩ := Option.bind_eq_some_iff.mp h
  obtain rfl := Option.some.inj hresult
  exact ⟨T.fits_convert product,
    (IntegerType.convert_modEq le_rfl product).trans
      (IntegerType.arith_modEq T.width_le_promote hproduct)⟩

theorem mulAssign_eq {value : ℤ} {extent : ℕ} (h : T.Fits (value * extent)) :
    mulAssign T value extent = some (value * extent) := by
  rw [mulAssign, IntegerType.arith_of_fits (IntegerType.fits_promote h), Option.bind_eq_bind,
    Option.bind_some, IntegerType.convert_of_fits h]
  rfl

/-- A loop computes the product modulo the range of the index type. -/
theorem modEq_of_foldlM {value result : ℤ} (hvalue : T.Fits value)
    (h : extents.foldlM (mulAssign T) value = some result) :
    T.Fits result ∧ result ≡ value * (extents.prod : ℕ) [ZMOD 2 ^ T.width] := by
  induction extents generalizing value with
  | nil =>
    obtain rfl := Option.some.inj h
    rw [List.prod_nil, Nat.cast_one, Int.mul_one]
    exact ⟨hvalue, Int.ModEq.refl _⟩
  | cons e es ih =>
    obtain ⟨next, hnext, hrest⟩ := Option.bind_eq_some_iff.mp h
    obtain ⟨hfits, hmod⟩ := mulAssign_modEq hnext
    obtain ⟨hresult, hprod⟩ := ih hfits hrest
    refine ⟨hresult, hprod.trans ?_⟩
    rw [List.prod_cons, Nat.cast_mul, ← Int.mul_assoc]
    exact hmod.mul_right _

/-- A loop computes the product if no product on the way overflows. -/
theorem foldlM_mulAssign {value : ℤ}
    (h : ∀ part, part <+: extents → T.Fits (value * (part.prod : ℕ))) :
    extents.foldlM (mulAssign T) value = some (value * (extents.prod : ℕ)) := by
  induction extents generalizing value with
  | nil =>
    rw [List.foldlM_nil, List.prod_nil, Nat.cast_one, Int.mul_one]
    rfl
  | cons e es ih =>
    have hfirst := h [e] (List.prefix_append [e] es)
    rw [List.prod_singleton] at hfirst
    rw [List.foldlM_cons, mulAssign_eq hfirst, List.prod_cons, Nat.cast_mul, ← Int.mul_assoc]
    apply ih
    intro part hpart
    have hrest := h (e :: part) (List.cons_prefix_cons.mpr ⟨rfl, hpart⟩)
    rwa [List.prod_cons, Nat.cast_mul, ← Int.mul_assoc] at hrest

theorem foldlM_mulAssign_one (h : ∀ part, part <+: extents → T.Fits (part.prod : ℕ)) :
    extents.foldlM (mulAssign T) 1 = some ((extents.prod : ℕ) : ℤ) := by
  have hone : ∀ part, part <+: extents → T.Fits (1 * (part.prod : ℕ)) := by
    intro part hpart
    rw [Int.one_mul]
    exact h part hpart
  rw [foldlM_mulAssign hone, Int.one_mul]

/-- Nothing overflows in an unsigned type. -/
theorem exists_foldlM_mulAssign (hT : T.promote.signed = false) (value : ℤ) (extents : List ℕ) :
    ∃ result, extents.foldlM (mulAssign T) value = some result := by
  induction extents generalizing value with
  | nil => exact ⟨value, rfl⟩
  | cons e es ih =>
    obtain ⟨product, hproduct⟩ := IntegerType.exists_arith hT (value * e)
    obtain ⟨result, hresult⟩ := ih (T.convert product)
    refine ⟨result, ?_⟩
    rw [List.foldlM_cons, mulAssign, hproduct]
    exact hresult

/-! ## layout_left -/

namespace LayoutLeft

/-- `i0 + E0 * (i1 + E1 * (i2 + …))`. -/
def computeOffset (T : IntegerType) : List ℕ → List ℕ → Option ℤ
  | [], [] => some 0
  | [_], [i] => some (T.convert i)
  | e :: e' :: es, i :: is => do
    let inner ← computeOffset T (e' :: es) is
    let scaled ← T.promote.arith (inner * e)
    let sum ← T.promote.arith (scaled + i)
    return T.convert sum
  | _, _ => none

def stride (T : IntegerType) (extents : List ℕ) (r : ℕ) : Option ℤ :=
  (extents.take r).foldlM (mulAssign T) 1

/-- An offset is the sum of the indices by their weights, modulo the range of
the index type. -/
theorem computeOffset_modEq {offset : ℤ} (h : computeOffset T extents indices = some offset) :
    T.Fits offset ∧ offset ≡ (dot indices (weights extents) : ℕ) [ZMOD 2 ^ T.width] := by
  fun_induction computeOffset T extents indices generalizing offset with
  | case1 =>
    obtain rfl := Option.some.inj h
    exact ⟨T.fits_zero, Int.ModEq.refl _⟩
  | case2 e i =>
    obtain rfl := Option.some.inj h
    refine ⟨T.fits_convert i, (IntegerType.convert_modEq le_rfl _).trans ?_⟩
    rw [weights, dot_cons, Nat.mul_one, dot_nil]
    exact Int.ModEq.refl _
  | case3 e e' es i is ih =>
    obtain ⟨inner, hinner, h⟩ := Option.bind_eq_some_iff.mp h
    obtain ⟨scaled, hscaled, h⟩ := Option.bind_eq_some_iff.mp h
    obtain ⟨sum, hsum, hoffset⟩ := Option.bind_eq_some_iff.mp h
    obtain rfl := Option.some.inj hoffset
    have hscaled_mod := IntegerType.arith_modEq T.width_le_promote hscaled
    have hsum_mod := IntegerType.arith_modEq T.width_le_promote hsum
    have hinner_mod := (ih hinner).2
    refine ⟨T.fits_convert sum, ?_⟩
    calc T.convert sum ≡ sum [ZMOD 2 ^ T.width] := IntegerType.convert_modEq le_rfl sum
      _ ≡ scaled + i [ZMOD 2 ^ T.width] := hsum_mod
      _ ≡ inner * e + i [ZMOD 2 ^ T.width] := hscaled_mod.add_right _
      _ ≡ (dot is (weights (e' :: es)) : ℕ) * e + i [ZMOD 2 ^ T.width] :=
        (hinner_mod.mul_right _).add_right _
      _ = (dot (i :: is) (weights (e :: e' :: es)) : ℕ) := by
        rw [dot_weights_cons, Nat.cast_add, Nat.cast_mul, Int.add_comm, Int.mul_comm]
  | case4 => contradiction

theorem exists_computeOffset (hT : T.promote.signed = false)
    (hlength : indices.length = extents.length) : ∃ offset, computeOffset T extents indices =
      some offset := by
  induction extents generalizing indices with
  | nil =>
    obtain rfl := List.length_eq_zero_iff.mp hlength
    exact ⟨0, rfl⟩
  | cons e es ih =>
    obtain ⟨i, is, rfl⟩ := List.exists_cons_of_length_eq_add_one hlength
    obtain ⟨inner, hinner⟩ := ih (Nat.succ.inj hlength)
    cases es with
    | nil =>
      obtain rfl := List.length_eq_zero_iff.mp (Nat.succ.inj hlength)
      exact ⟨T.convert i, rfl⟩
    | cons e' es =>
      obtain ⟨scaled, hscaled⟩ := IntegerType.exists_arith hT (inner * e)
      obtain ⟨sum, hsum⟩ := IntegerType.exists_arith hT (scaled + i)
      refine ⟨T.convert sum, ?_⟩
      rw [computeOffset, hinner, Option.bind_eq_bind, Option.bind_some, hscaled, Option.bind_some,
        hsum]
      rfl

/-- The products and sums of the recursion. -/
def steps : List ℕ → List ℕ → List ℕ
  | [_], [i] => [i]
  | e :: e' :: es, i :: is =>
    let inner := dot is (weights (e' :: es))
    inner * e :: (inner * e + i) :: steps (e' :: es) is
  | _, _ => []

/-- An offset is computed if no product and no sum overflows. -/
theorem computeOffset_of_steps (hlength : indices.length = extents.length)
    (h : ∀ x ∈ steps extents indices, T.Fits x) :
    computeOffset T extents indices = some ((dot indices (weights extents) : ℕ) : ℤ) := by
  fun_induction computeOffset T extents indices with
  | case1 => rfl
  | case2 e i =>
    have hi : T.Fits i := h i (List.mem_singleton.mpr rfl)
    rw [IntegerType.convert_of_fits hi, weights, dot_cons, Nat.mul_one, dot_nil, Nat.add_zero]
  | case3 e e' es i is ih =>
    rw [steps] at h
    obtain ⟨hproduct, h⟩ := List.forall_mem_cons.mp h
    obtain ⟨hsum, hrest⟩ := List.forall_mem_cons.mp h
    rw [Nat.cast_mul] at hproduct
    rw [Nat.cast_add, Nat.cast_mul] at hsum
    rw [ih (Nat.succ.inj hlength) hrest, dot_weights_cons, Nat.cast_add, Nat.cast_mul,
      Int.add_comm (i : ℤ), Int.mul_comm (e : ℤ)]
    simp only [Option.bind_eq_bind, Option.bind_some,
      IntegerType.arith_of_fits (IntegerType.fits_promote hproduct),
      IntegerType.arith_of_fits (IntegerType.fits_promote hsum),
      IntegerType.convert_of_fits hsum]
    rfl
  | case4 extents indices hnil hone hcons =>
    cases extents with
    | nil => exact absurd (List.length_eq_zero_iff.mp hlength) (hnil rfl)
    | cons e es =>
      obtain ⟨i, is, rfl⟩ := List.exists_cons_of_length_eq_add_one hlength
      cases es with
      | nil =>
        obtain rfl := List.length_eq_zero_iff.mp (Nat.succ.inj hlength)
        exact absurd rfl (hone e i rfl)
      | cons e' es => exact absurd rfl (hcons e e' es i is rfl)

/-- Of an index in range, no step is above the offset. -/
theorem steps_le (h : InRange indices extents) :
    ∀ x ∈ steps extents indices, x ≤ dot indices (weights extents) := by
  induction h with
  | nil => exact List.forall_mem_nil _
  | @cons i e is es hi his ih =>
    rw [dot_weights_cons]
    cases his with
    | nil =>
      rw [steps, List.forall_mem_singleton]
      exact Nat.le_add_right _ _
    | @cons i' e' is es hi' his =>
      have hinner : dot (i' :: is) (weights (e' :: es)) ≤ e * dot (i' :: is) (weights (e' :: es)) :=
        Nat.le_mul_of_pos_left _ (Nat.zero_lt_of_lt hi)
      rw [steps, Nat.mul_comm _ e]
      refine List.forall_mem_cons.mpr ⟨Nat.le_add_left _ _,
        List.forall_mem_cons.mpr ⟨(Nat.add_comm _ _).le, fun x hx => ?_⟩⟩
      exact (ih x hx).trans (hinner.trans (Nat.le_add_left _ _))

end LayoutLeft

/-! ## layout_right -/

namespace LayoutRight

/-- The parameter is of the index type, and a `size_t` in the last call. -/
def computeOffsetFrom (T : IntegerType) (offset : ℤ) : List ℕ → List ℕ → Option ℤ
  | [], [] => some (T.convert (IntegerType.size.convert offset))
  | e :: es, i :: is => do
    let scaled ← T.promote.arith (T.convert offset * e)
    let next ← T.promote.arith (scaled + i)
    computeOffsetFrom T next es is
  | _, _ => none

/-- `((i0 * E1 + i1) * E2 + i2) * …`. -/
def computeOffset (T : IntegerType) : List ℕ → List ℕ → Option ℤ
  | [], [] => some 0
  | _ :: es, i :: is => computeOffsetFrom T i es is
  | _, _ => none

def stride (T : IntegerType) (extents : List ℕ) (r : ℕ) : Option ℤ :=
  (extents.drop (r + 1)).reverse.foldlM (mulAssign T) 1

theorem dot_topWeights_cons (offset e i : ℕ) (es is : List ℕ) :
    offset * (e :: es).prod + dot (i :: is) (topWeights (e :: es)) =
      (offset * e + i) * es.prod + dot is (topWeights es) := by
  rw [topWeights, dot_cons, List.prod_cons, Nat.add_mul, Nat.mul_assoc, Nat.add_assoc]

theorem computeOffsetFrom_modEq (hT : T.width ≤ 64) {offset result : ℤ} {exact : ℕ}
    (hoffset : offset ≡ exact [ZMOD 2 ^ T.width])
    (h : computeOffsetFrom T offset extents indices = some result) :
    T.Fits result ∧ result ≡ (exact * extents.prod + dot indices (topWeights extents) : ℕ)
      [ZMOD 2 ^ T.width] := by
  fun_induction computeOffsetFrom T offset extents indices generalizing result exact with
  | case1 offset =>
    obtain rfl := Option.some.inj h
    rw [List.prod_nil, Nat.mul_one, dot_nil, Nat.add_zero]
    exact ⟨T.fits_convert _, ((IntegerType.convert_modEq le_rfl _).trans
      (IntegerType.convert_modEq hT offset)).trans hoffset⟩
  | case2 offset e es i is ih =>
    obtain ⟨scaled, hscaled, h⟩ := Option.bind_eq_some_iff.mp h
    obtain ⟨next, hnext, hrest⟩ := Option.bind_eq_some_iff.mp h
    have hscaled_mod := IntegerType.arith_modEq T.width_le_promote hscaled
    have hnext_mod := IntegerType.arith_modEq T.width_le_promote hnext
    rw [dot_topWeights_cons]
    apply ih _ ?_ hrest
    rw [Nat.cast_add, Nat.cast_mul]
    calc next ≡ scaled + i [ZMOD 2 ^ T.width] := hnext_mod
      _ ≡ T.convert offset * e + i [ZMOD 2 ^ T.width] := hscaled_mod.add_right _
      _ ≡ exact * e + i [ZMOD 2 ^ T.width] :=
        (((IntegerType.convert_modEq le_rfl offset).trans hoffset).mul_right _).add_right _
  | case3 => contradiction

/-- An offset is the sum of the indices by their weights, modulo the range of
the index type. -/
theorem computeOffset_modEq (hT : T.width ≤ 64) {offset : ℤ}
    (h : computeOffset T extents indices = some offset) :
    T.Fits offset ∧ offset ≡ (dot indices (topWeights extents) : ℕ) [ZMOD 2 ^ T.width] := by
  fun_cases computeOffset T extents indices with
  | case1 =>
    obtain rfl := Option.some.inj h
    exact ⟨T.fits_zero, Int.ModEq.refl _⟩
  | case2 e es i is => exact computeOffsetFrom_modEq hT (Int.ModEq.refl _) h
  | case3 => simp [computeOffset] at h

theorem exists_computeOffsetFrom (hT : T.promote.signed = false) (offset : ℤ)
    (hlength : indices.length = extents.length) :
    ∃ result, computeOffsetFrom T offset extents indices = some result := by
  induction extents generalizing offset indices with
  | nil =>
    obtain rfl := List.length_eq_zero_iff.mp hlength
    exact ⟨_, rfl⟩
  | cons e es ih =>
    obtain ⟨i, is, rfl⟩ := List.exists_cons_of_length_eq_add_one hlength
    obtain ⟨scaled, hscaled⟩ := IntegerType.exists_arith hT (T.convert offset * e)
    obtain ⟨next, hnext⟩ := IntegerType.exists_arith hT (scaled + i)
    obtain ⟨result, hresult⟩ := ih next (Nat.succ.inj hlength)
    refine ⟨result, ?_⟩
    rw [computeOffsetFrom, hscaled, Option.bind_eq_bind, Option.bind_some, hnext, Option.bind_some,
      hresult]

theorem exists_computeOffset (hT : T.promote.signed = false)
    (hlength : indices.length = extents.length) :
    ∃ offset, computeOffset T extents indices = some offset := by
  cases extents with
  | nil =>
    obtain rfl := List.length_eq_zero_iff.mp hlength
    exact ⟨0, rfl⟩
  | cons e es =>
    obtain ⟨i, is, rfl⟩ := List.exists_cons_of_length_eq_add_one hlength
    exact exists_computeOffsetFrom hT i (Nat.succ.inj hlength)

/-- The products and sums of the recursion. -/
def stepsFrom (offset : ℕ) : List ℕ → List ℕ → List ℕ
  | e :: es, i :: is => offset * e :: (offset * e + i) :: stepsFrom (offset * e + i) es is
  | _, _ => []

def steps : List ℕ → List ℕ → List ℕ
  | _ :: es, i :: is => i :: stepsFrom i es is
  | _, _ => []

theorem computeOffsetFrom_of_steps (hlength : indices.length = extents.length) {offset : ℕ}
    (hoffset : T.Fits offset) (h : ∀ x ∈ stepsFrom offset extents indices, T.Fits x)
    (hsize : IntegerType.size.Fits
      (offset * extents.prod + dot indices (topWeights extents) : ℕ)) :
    computeOffsetFrom T offset extents indices =
      some ((offset * extents.prod + dot indices (topWeights extents) : ℕ) : ℤ) := by
  induction extents generalizing indices offset with
  | nil =>
    obtain rfl := List.length_eq_zero_iff.mp hlength
    rw [List.prod_nil, Nat.mul_one, dot_nil, Nat.add_zero] at hsize ⊢
    rw [computeOffsetFrom, IntegerType.convert_of_fits hsize, IntegerType.convert_of_fits hoffset]
  | cons e es ih =>
    obtain ⟨i, is, rfl⟩ := List.exists_cons_of_length_eq_add_one hlength
    rw [stepsFrom] at h
    obtain ⟨hproduct, h⟩ := List.forall_mem_cons.mp h
    obtain ⟨hsum, hrest⟩ := List.forall_mem_cons.mp h
    rw [dot_topWeights_cons] at hsize ⊢
    rw [← ih (Nat.succ.inj hlength) hsum hrest hsize]
    rw [Nat.cast_mul] at hproduct
    rw [Nat.cast_add, Nat.cast_mul] at hsum
    rw [computeOffsetFrom, IntegerType.convert_of_fits hoffset,
      IntegerType.arith_of_fits (IntegerType.fits_promote hproduct), Option.bind_eq_bind,
      Option.bind_some, IntegerType.arith_of_fits (IntegerType.fits_promote hsum),
      Option.bind_some, Nat.cast_add, Nat.cast_mul]

/-- An offset is computed if no product and no sum overflows, and the offset
passes through `size_t`. -/
theorem computeOffset_of_steps (hlength : indices.length = extents.length)
    (h : ∀ x ∈ steps extents indices, T.Fits x)
    (hsize : IntegerType.size.Fits (dot indices (topWeights extents) : ℕ)) :
    computeOffset T extents indices = some ((dot indices (topWeights extents) : ℕ) : ℤ) := by
  cases extents with
  | nil =>
    obtain rfl := List.length_eq_zero_iff.mp hlength
    rfl
  | cons e es =>
    obtain ⟨i, is, rfl⟩ := List.exists_cons_of_length_eq_add_one hlength
    obtain ⟨hfirst, hrest⟩ := List.forall_mem_cons.mp h
    exact computeOffsetFrom_of_steps (Nat.succ.inj hlength) hfirst hrest hsize

theorem stepsFrom_le (offset : ℕ) (h : InRange indices extents) :
    ∀ x ∈ stepsFrom offset extents indices,
      x ≤ offset * extents.prod + dot indices (topWeights extents) := by
  induction h generalizing offset with
  | nil => exact List.forall_mem_nil _
  | @cons i e is es hi his ih =>
    have hpos : 0 < es.prod := Nat.zero_lt_of_lt (dot_topWeights_lt his)
    have hnext : offset * e + i ≤ (offset * e + i) * es.prod + dot is (topWeights es) :=
      (Nat.le_mul_of_pos_right _ hpos).trans (Nat.le_add_right _ _)
    rw [dot_topWeights_cons, stepsFrom]
    exact List.forall_mem_cons.mpr ⟨(Nat.le_add_right _ _).trans hnext,
      List.forall_mem_cons.mpr ⟨hnext, ih _⟩⟩

/-- Of an index in range, no step is above the offset. -/
theorem steps_le (h : InRange indices extents) :
    ∀ x ∈ steps extents indices, x ≤ dot indices (topWeights extents) := by
  cases h with
  | nil => exact List.forall_mem_nil _
  | @cons i e is es hi his =>
    have hpos : 0 < es.prod := Nat.zero_lt_of_lt (dot_topWeights_lt his)
    rw [topWeights, dot_cons]
    exact List.forall_mem_cons.mpr
      ⟨(Nat.le_mul_of_pos_right _ hpos).trans (Nat.le_add_right _ _), stepsFrom_le i his⟩

end LayoutRight

/-! ## Representable offsets -/

/-- No step overflows if the offset does not. -/
theorem LayoutLeft.computeOffset_eq (h : InRange indices extents)
    (hfits : T.Fits (dot indices (weights extents) : ℕ)) :
    computeOffset T extents indices = some ((dot indices (weights extents) : ℕ) : ℤ) :=
  computeOffset_of_steps h.length_eq fun x hx => IntegerType.fits_of_le_nat (steps_le h x hx) hfits

/-- No step overflows if the offset does not. -/
theorem LayoutRight.computeOffset_eq (h : InRange indices extents)
    (hfits : T.Fits (dot indices (topWeights extents) : ℕ))
    (hsize : IntegerType.size.Fits (dot indices (topWeights extents) : ℕ)) :
    computeOffset T extents indices = some ((dot indices (topWeights extents) : ℕ) : ℤ) :=
  computeOffset_of_steps h.length_eq (fun x hx => IntegerType.fits_of_le_nat (steps_le h x hx) hfits) hsize

/-! ## layout_stride -/

namespace LayoutStride

/-- `i0 * s0 + (i1 * s1 + (… + 0))`. -/
def callOpImpl (T : IntegerType) : List ℤ → List ℕ → Option ℤ
  | [], [] => some 0
  | s :: ss, i :: is => do
    let term ← T.promote.arith (T.convert i * s)
    let rest ← callOpImpl T ss is
    T.promote.arith (term + rest)
  | _, _ => none

/-- `operator()`; the sum comes back as a `size_t`. -/
def callOp (T : IntegerType) (strides : List ℤ) (indices : List ℕ) : Option ℤ := do
  let sum ← callOpImpl T strides indices
  return T.convert (IntegerType.size.convert sum)

theorem callOpImpl_modEq {strides : List ℤ} {sum : ℤ}
    (h : callOpImpl T strides indices = some sum) :
    sum ≡ dotInt indices strides [ZMOD 2 ^ T.width] := by
  fun_induction callOpImpl T strides indices generalizing sum with
  | case1 =>
    obtain rfl := Option.some.inj h
    exact Int.ModEq.refl _
  | case2 s ss i is ih =>
    obtain ⟨term, hterm, h⟩ := Option.bind_eq_some_iff.mp h
    obtain ⟨rest, hrest, hsum⟩ := Option.bind_eq_some_iff.mp h
    have hterm_mod := IntegerType.arith_modEq T.width_le_promote hterm
    have hsum_mod := IntegerType.arith_modEq T.width_le_promote hsum
    rw [dotInt_cons]
    calc sum ≡ term + rest [ZMOD 2 ^ T.width] := hsum_mod
      _ ≡ T.convert i * s + dotInt is ss [ZMOD 2 ^ T.width] := hterm_mod.add (ih hrest)
      _ ≡ i * s + dotInt is ss [ZMOD 2 ^ T.width] :=
        ((IntegerType.convert_modEq le_rfl _).mul_right _).add_right _
  | case3 => exact nomatch h

/-- An offset is the sum of the indices by the strides, modulo the range of the
index type. -/
theorem callOp_modEq (hT : T.width ≤ 64) {strides : List ℤ} {offset : ℤ}
    (h : callOp T strides indices = some offset) :
    T.Fits offset ∧ offset ≡ dotInt indices strides [ZMOD 2 ^ T.width] := by
  obtain ⟨sum, hsum, hoffset⟩ := Option.bind_eq_some_iff.mp h
  obtain rfl := Option.some.inj hoffset
  exact ⟨T.fits_convert _, ((IntegerType.convert_modEq le_rfl _).trans
    (IntegerType.convert_modEq hT sum)).trans (callOpImpl_modEq hsum)⟩

theorem exists_callOp (hT : T.promote.signed = false) {strides : List ℤ}
    (hlength : indices.length = strides.length) :
    ∃ offset, callOp T strides indices = some offset := by
  have hsum : ∃ sum, callOpImpl T strides indices = some sum := by
    induction strides generalizing indices with
    | nil =>
      obtain rfl := List.length_eq_zero_iff.mp hlength
      exact ⟨0, rfl⟩
    | cons s ss ih =>
      obtain ⟨i, is, rfl⟩ := List.exists_cons_of_length_eq_add_one hlength
      obtain ⟨term, hterm⟩ := IntegerType.exists_arith hT (T.convert i * s)
      obtain ⟨rest, hrest⟩ := ih (Nat.succ.inj hlength)
      obtain ⟨sum, hsum⟩ := IntegerType.exists_arith hT (term + rest)
      refine ⟨sum, ?_⟩
      rw [callOpImpl, hterm, hrest]
      exact hsum
  obtain ⟨sum, hsum⟩ := hsum
  exact ⟨_, Option.bind_eq_some_iff.mpr ⟨sum, hsum, rfl⟩⟩

/-- A stride does not matter where the index is zero. -/
theorem callOpImpl_congr {strides strides' : List ℤ} (hlength : strides.length = strides'.length)
    (h : ∀ r, indices.getD r 0 = 0 ∨ strides.getD r 0 = strides'.getD r 0) :
    callOpImpl T strides indices = callOpImpl T strides' indices := by
  induction strides generalizing strides' indices with
  | nil => rw [List.length_eq_zero_iff.mp hlength.symm]
  | cons s ss ih =>
    obtain ⟨s', ss', rfl⟩ := List.exists_cons_of_length_eq_add_one hlength.symm
    cases indices with
    | nil => rfl
    | cons i is =>
      have hrest : callOpImpl T ss is = callOpImpl T ss' is :=
        ih (Nat.succ.inj hlength) fun r => h (r + 1)
      have hterm : T.convert i * s = T.convert i * s' := by
        rcases h 0 with hzero | hsame
        · have hi : i = 0 := hzero
          rw [hi, Nat.cast_zero, IntegerType.convert_of_fits T.fits_zero, Int.zero_mul,
            Int.zero_mul]
        · have hs : s = s' := hsame
          rw [hs]
      rw [callOpImpl, callOpImpl, hrest, hterm]

/-- No step overflows if the sum does not. -/
theorem callOpImpl_eq {strides : List ℕ} (hlength : indices.length = strides.length)
    (hfits : T.Fits (dot indices strides : ℕ)) :
    callOpImpl T (strides.map Nat.cast) indices = some ((dot indices strides : ℕ) : ℤ) := by
  induction strides generalizing indices with
  | nil =>
    obtain rfl := List.length_eq_zero_iff.mp hlength
    rfl
  | cons s ss ih =>
    obtain ⟨i, is, rfl⟩ := List.exists_cons_of_length_eq_add_one hlength
    rw [dot_cons] at hfits ⊢
    have hterm : T.Fits (i * s : ℕ) := IntegerType.fits_of_le_nat (Nat.le_add_right _ _) hfits
    have hrest : T.Fits (dot is ss : ℕ) := IntegerType.fits_of_le_nat (Nat.le_add_left _ _) hfits
    have hindex : T.convert i * s = (i * s : ℕ) := by
      rcases Nat.eq_zero_or_pos s with rfl | hs
      · rw [Nat.mul_zero, Nat.cast_zero, Int.mul_zero]
      · have hi : T.Fits i := IntegerType.fits_of_le_nat (Nat.le_mul_of_pos_right i hs) hterm
        rw [IntegerType.convert_of_fits hi, Nat.cast_mul]
    rw [Nat.cast_add] at hfits ⊢
    rw [List.map_cons, callOpImpl, hindex, IntegerType.arith_of_fits (IntegerType.fits_promote hterm),
      ih (Nat.succ.inj hlength) hrest, Option.bind_eq_bind, Option.bind_some, Option.bind_some]
    exact IntegerType.arith_of_fits (IntegerType.fits_promote hfits)

/-- An offset is computed if it is representable, also as a `size_t`. -/
theorem callOp_eq {strides : List ℕ} (hlength : indices.length = strides.length)
    (hfits : T.Fits (dot indices strides : ℕ))
    (hsize : IntegerType.size.Fits (dot indices strides : ℕ)) :
    callOp T (strides.map Nat.cast) indices = some ((dot indices strides : ℕ) : ℤ) := by
  rw [callOp, callOpImpl_eq hlength hfits, Option.bind_eq_bind, Option.bind_some,
    IntegerType.convert_of_fits hsize, IntegerType.convert_of_fits hfits]
  rfl

end LayoutStride

end Libhipcxx.Mdspan
