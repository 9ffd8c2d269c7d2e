import Libhipcxx.Mdspan.Extents
import Libhipcxx.Mdspan.Meaning
import Libhipcxx.Mdspan.Strided
import Mathlib.Data.Nat.ModEq

/-!
# Conversions between the layouts

`layout_stride` takes over the strides of any mapping, as that computes them:
behind a zero extent they may have wrapped around.  `layout_left` and
`layout_right` take over a `layout_stride` mapping after a loop has compared
its strides with products of the extents, in `size_t`.  Where the check is not
compiled in, as for a device, there is nothing to say about it.
-/

namespace Libhipcxx.Mdspan

open MixedRadix

/-! ## Mappings -/

/-- The layouts whose strides follow from the extents. -/
inductive Side
  | left
  | right

namespace Side

/-- The strides as exact products. -/
def canonical : Side → List ℕ → List ℕ
  | left, extents => weights extents
  | right, extents => topWeights extents

def stride (T : IntegerType) (extents : List ℕ) (r : ℕ) : Side → Option ℤ
  | left => LayoutLeft.stride T extents r
  | right => LayoutRight.stride T extents r

def computeOffset (T : IntegerType) (extents indices : List ℕ) : Side → Option ℤ
  | left => LayoutLeft.computeOffset T extents indices
  | right => LayoutRight.computeOffset T extents indices

/-- The extents and strides in the order of the check. -/
def dims : Side → List ℕ → List ℤ → List (ℕ × ℤ)
  | left, extents, strides => extents.zip strides
  | right, extents, strides => (extents.zip strides).reverse

end Side

/-- A `layout_left` or a `layout_right` mapping over an index type. -/
structure SideMapping (side : Side) (T : IntegerType) where
  extents : List ℕ
  extents_fit : ∀ e ∈ extents, T.Fits e

namespace SideMapping

variable {side : Side} {T : IntegerType}

def offset (m : SideMapping side T) (indices : List ℕ) : Option ℤ :=
  side.computeOffset T m.extents indices

def stride (m : SideMapping side T) (r : ℕ) : Option ℤ := side.stride T m.extents r

end SideMapping

/-- A mapping of any layout that has strides. -/
structure StridedLayoutMapping where
  index : IntegerType
  extents : List ℕ
  stride : ℕ → Option ℤ
  offset : List ℕ → Option ℤ

def SideMapping.toStrided {side : Side} {T : IntegerType} (m : SideMapping side T) :
    StridedLayoutMapping where
  index := T
  extents := m.extents
  stride := m.stride
  offset := m.offset

/-- The strides of all dimensions. -/
def StridedLayoutMapping.strides (y : StridedLayoutMapping) : Option (List ℤ) :=
  (List.range y.extents.length).mapM y.stride

/-! ## Conversions -/

/-- `fill_strides` of a mapping. -/
def fillStrides (U : IntegerType) (other : StridedLayoutMapping) : Option (List ℤ) :=
  (List.range other.extents.length).mapM fun r => do
    let stride ← other.stride r
    return U.convert stride

/-- The constructor of `layout_stride` from a mapping with strides; none if an
extent is not one of the index type. -/
def StrideMapping.ofStrided (U : IntegerType) (other : StridedLayoutMapping) :
    Option (StrideMapping U) := do
  let strides ← fillStrides U other
  if h : strides.length = other.extents.length ∧ (∀ e ∈ other.extents, U.Fits e) ∧
      ∀ s ∈ strides, U.Fits s then
    some ⟨other.extents, strides, h.1, h.2.1, h.2.2⟩
  else none

/-- The loop of the constructors from `layout_stride`, from a value of
`__stride` on. -/
def checkStrides : SizeT → List (ℕ × ℤ) → Bool
  | _, [] => true
  | expected, (extent, stride) :: dims =>
    if expected ≠ BitVec.ofInt 64 stride then false
    else checkStrides (expected * BitVec.ofNat 64 extent) dims

/-- The constructors of `layout_left` and `layout_right` from `layout_stride`;
none if the strides are rejected, or an extent is not one of the index type. -/
def SideMapping.ofStride (side : Side) (U : IntegerType) {T : IntegerType}
    (other : StrideMapping T) : Option (SideMapping side U) :=
  if h : ∀ e ∈ other.extents, U.Fits e then
    if checkStrides 1 (side.dims other.extents other.strides) then some ⟨other.extents, h⟩
    else none
  else none

/-! ## Equality -/

/-- `operator==` of extents of one rank. -/
def extentsEqual (T U : IntegerType) (xs ys : List ℕ) : Bool :=
  (xs.zip ys).all fun d => Extents.valuesEqual T U d.1 d.2

/-- The fold of `_eq_impl` over the strides. -/
def stridesEqual (T U : IntegerType) (xs ys : List ℤ) : Bool :=
  (xs.zip ys).all fun d => Extents.valuesEqual T U d.1 d.2

namespace StrideMapping

variable {T U : IntegerType}

/-- The loop over the strides. -/
def stridesMatch (x : StrideMapping T) (y : StridedLayoutMapping) : List ℕ → Bool → Option Bool
  | [], answer => some answer
  | _ :: rs, false => stridesMatch x y rs false
  | r :: rs, true => do
    let stride ← y.stride r
    stridesMatch x y rs (Extents.valuesEqual T y.index (x.strides.getD r 0) stride)

/-- `operator==` with a mapping of any layout that has strides.  The constraint
is that of the template. -/
def eqStrided (x : StrideMapping T) (y : StridedLayoutMapping) : Option Bool :=
  if x.extents.length = y.extents.length then do
    let answer ← stridesMatch x y (List.range x.extents.length) true
    if extentsEqual T y.index x.extents y.extents then do
      let first ← y.offset (List.replicate y.extents.length 0)
      return first == 0 && answer
    else return false
  else none

/-- `operator==` with another `layout_stride` mapping. -/
def eqImpl (x : StrideMapping T) (y : StrideMapping U) : Option Bool :=
  if x.extents.length = y.extents.length then
    some (stridesEqual T U x.strides y.strides && extentsEqual T U x.extents y.extents)
  else none

end StrideMapping

/-! ## Strides and offsets by products -/

variable {side : Side} {T U : IntegerType} {n : ℕ} {extents indices : List ℕ}

namespace Side

theorem length_canonical (side : Side) (extents : List ℕ) :
    (side.canonical extents).length = extents.length := by
  cases side with
  | left => exact length_weights extents
  | right => exact length_topWeights extents

theorem getD_of_getElem? {xs : List ℕ} {r x : ℕ} (h : xs[r]? = some x) : xs.getD r 0 = x := by
  rw [List.getD_eq_getElem?_getD, h]
  rfl

/-- A stride is computed if all products are representable. -/
theorem stride_eq (hfit : ∀ w ∈ side.canonical extents, T.Fits w) {r : ℕ}
    (hr : r < extents.length) :
    side.stride T extents r = some (((side.canonical extents).getD r 0 : ℕ) : ℤ) := by
  cases side with
  | left =>
    rw [canonical, getD_of_getElem? (weights_getElem? extents hr)]
    exact leftStride_eq hfit hr
  | right =>
    rw [canonical, getD_of_getElem? (topWeights_getElem? extents hr)]
    exact rightStride_eq hfit hr

/-- A stride is the product modulo the range of the index type. -/
theorem stride_modEq {r : ℕ} {s : ℤ} (hr : r < extents.length)
    (h : side.stride T extents r = some s) :
    T.Fits s ∧ s ≡ ((side.canonical extents).getD r 0 : ℕ) [ZMOD 2 ^ T.width] := by
  cases side with
  | left =>
    rw [canonical, getD_of_getElem? (weights_getElem? extents hr), ← Int.one_mul (Nat.cast _)]
    exact modEq_of_foldlM T.fits_one h
  | right =>
    rw [canonical, getD_of_getElem? (topWeights_getElem? extents hr), ← List.prod_reverse,
      ← Int.one_mul (Nat.cast _)]
    exact modEq_of_foldlM T.fits_one h

theorem computeOffset_eq (hin : InRange indices extents)
    (hfits : T.Fits (dot indices (side.canonical extents) : ℕ))
    (hsize : IntegerType.size.Fits (dot indices (side.canonical extents) : ℕ)) :
    side.computeOffset T extents indices =
      some ((dot indices (side.canonical extents) : ℕ) : ℤ) := by
  cases side with
  | left => exact LayoutLeft.computeOffset_eq hin hfits
  | right => exact LayoutRight.computeOffset_eq hin hfits hsize

theorem computeOffset_modEq (hT : T.width ≤ 64) {o : ℤ}
    (h : side.computeOffset T extents indices = some o) :
    T.Fits o ∧ o ≡ (dot indices (side.canonical extents) : ℕ) [ZMOD 2 ^ T.width] := by
  cases side with
  | left => exact LayoutLeft.computeOffset_modEq h
  | right => exact LayoutRight.computeOffset_modEq hT h

/-- The offset of the first index, also if it is not in range. -/
theorem computeOffset_zeros (side : Side) (T : IntegerType) (extents : List ℕ) :
    side.computeOffset T extents (List.replicate extents.length 0) = some 0 := by
  have hconvert : T.convert 0 = 0 := IntegerType.convert_of_fits T.fits_zero
  have hsize : IntegerType.size.convert 0 = 0 := rfl
  have harith : T.promote.arith 0 = some 0 := IntegerType.arith_of_fits T.promote.fits_zero
  cases side with
  | left =>
    change LayoutLeft.computeOffset T extents _ = some 0
    induction extents with
    | nil => rfl
    | cons e es ih =>
      cases es with
      | nil => exact congrArg some hconvert
      | cons e' es =>
        rw [List.length_cons, List.replicate_succ, LayoutLeft.computeOffset, ih,
          Option.bind_eq_bind, Option.bind_some, Int.zero_mul, harith, Option.bind_some,
          Nat.cast_zero, Int.add_zero, harith, Option.bind_some, hconvert]
        rfl
  | right =>
    change LayoutRight.computeOffset T extents _ = some 0
    have hfrom (es : List ℕ) :
        LayoutRight.computeOffsetFrom T 0 es (List.replicate es.length 0) = some 0 := by
      induction es with
      | nil => exact congrArg some (hsize.symm ▸ hconvert)
      | cons e es ih =>
        rw [List.length_cons, List.replicate_succ, LayoutRight.computeOffsetFrom, hconvert,
          Int.zero_mul, harith, Option.bind_eq_bind, Option.bind_some, Nat.cast_zero, Int.add_zero,
          harith, Option.bind_some, ih]
    cases extents with
    | nil => rfl
    | cons e es => exact hfrom es

end Side

/-! ## The check of the strides -/

/-- Strides that the check does not tell from the products, modulo the range of
`size_t`. -/
def Congruent (strides : List ℤ) (products : List ℕ) : Prop :=
  List.Forall₂ (fun s p => s ≡ (p : ℕ) [ZMOD 2 ^ 64]) strides products

/-- Strides that are not negative. -/
theorem congruent_cast_iff {ws products : List ℕ} :
    Congruent (ws.map Nat.cast) products ↔ List.Forall₂ (· ≡ · [MOD 2 ^ 64]) ws products := by
  rw [Congruent, List.forall₂_map_left_iff]
  exact iff_of_eq (congrArg (List.Forall₂ · ws products)
    (funext fun w => funext fun p => propext (Int.natCast_modEq_iff (n := 2 ^ 64))))

theorem word_eq_iff (c : ℕ) (s : ℤ) :
    BitVec.ofNat 64 c = BitVec.ofInt 64 s ↔ s ≡ (c : ℕ) [ZMOD 2 ^ 64] := by
  rw [← BitVec.toNat_inj, BitVec.toNat_ofNat, BitVec.toNat_ofInt, Int.ModEq]
  omega

theorem map_mul_weights_cons (c e : ℕ) (es : List ℕ) :
    (weights (e :: es)).map (c * ·) = c :: (weights es).map (c * e * ·) := by
  rw [weights, List.map_cons, List.map_map, Nat.mul_one]
  congr 1
  apply List.map_congr_left
  intro w _
  exact (Nat.mul_assoc c e w).symm

theorem checkStrides_iff (c : ℕ) {strides : List ℤ} (hlength : strides.length = extents.length) :
    checkStrides (BitVec.ofNat 64 c) (extents.zip strides) = true ↔
      Congruent strides ((weights extents).map (c * ·)) := by
  induction extents generalizing c strides with
  | nil =>
    rw [List.length_eq_zero_iff.mp hlength]
    exact iff_of_true rfl List.Forall₂.nil
  | cons e es ih =>
    obtain ⟨s, ss, rfl⟩ := List.exists_cons_of_length_eq_add_one hlength
    rw [List.zip_cons_cons, checkStrides, map_mul_weights_cons, Congruent, List.forall₂_cons,
      ← word_eq_iff, ← BitVec.ofNat_mul]
    by_cases heq : BitVec.ofNat 64 c = BitVec.ofInt 64 s
    · rw [if_neg (not_not.mpr heq), ih (c * e) (Nat.succ.inj hlength), and_iff_right heq]
      rfl
    · rw [if_pos heq]
      exact iff_of_false Bool.false_ne_true fun h => heq h.1

theorem map_one_mul (xs : List ℕ) : xs.map (1 * ·) = xs := by
  simp only [Nat.one_mul, List.map_id']

/-- What the check of either layout accepts. -/
theorem checkStrides_dims_iff (side : Side) {strides : List ℤ}
    (hlength : strides.length = extents.length) :
    checkStrides 1 (side.dims extents strides) = true ↔
      Congruent strides (side.canonical extents) := by
  cases side with
  | left =>
    have h := checkStrides_iff 1 hlength
    rwa [map_one_mul] at h
  | right =>
    have hlength' : strides.reverse.length = extents.reverse.length := by
      rw [List.length_reverse, List.length_reverse, hlength]
    have hzip : (extents.zip strides).reverse = extents.reverse.zip strides.reverse :=
      List.reverse_zipWith hlength.symm
    have h := checkStrides_iff 1 hlength'
    rw [map_one_mul, ← hzip] at h
    rw [Side.dims, Side.canonical, topWeights_eq_reverse]
    apply h.trans
    rw [Congruent, ← List.forall₂_reverse_iff, List.reverse_reverse]
    rfl

/-- If no extent is zero, a span and strides within `size_t` leave no room for
other strides than the products. -/
theorem eq_of_congruent {c : ℕ} {ws : List ℕ} (hpos : ∀ e ∈ extents, 0 < e)
    (h : List.Forall₂ (· ≡ · [MOD 2 ^ 64]) ws ((weights extents).map (c * ·))) (hc : 0 < c)
    (hws : ∀ w ∈ ws, w < 2 ^ 64) (hspan : c + greatest extents ws < 2 ^ 64) :
    ws = (weights extents).map (c * ·) := by
  induction extents generalizing c ws with
  | nil => exact List.forall₂_nil_right_iff.mp h
  | cons e es ih =>
    rw [map_mul_weights_cons] at h ⊢
    obtain ⟨w, ws, hw, hrest, rfl⟩ := List.forall₂_cons_right_iff.mp h
    obtain ⟨he, hes⟩ := List.forall_mem_cons.mp hpos
    obtain ⟨hw_lt, hws_lt⟩ := List.forall_mem_cons.mp hws
    obtain rfl : w = c := Nat.ModEq.eq_of_lt_of_lt hw hw_lt (by omega)
    rw [greatest_cons] at hspan
    have hnext : w * e = w + (e - 1) * w := by
      rw [Nat.sub_mul, Nat.one_mul, Nat.mul_comm,
        Nat.add_sub_cancel' (Nat.le_mul_of_pos_left w he)]
    rw [← ih hes hrest (Nat.mul_pos hc he) hws_lt (by omega)]

/-- Accepted strides are the products themselves, where those are in reach. -/
theorem eq_canonical_of_congruent {ws : List ℕ} (hpos : ∀ e ∈ extents, 0 < e)
    (hlength : ws.length = extents.length)
    (h : List.Forall₂ (· ≡ · [MOD 2 ^ 64]) ws (side.canonical extents))
    (hws : ∀ w ∈ ws, w < 2 ^ 64) (hspan : 1 + greatest extents ws < 2 ^ 64) :
    ws = side.canonical extents := by
  cases side with
  | left =>
    rw [Side.canonical, ← map_one_mul (weights extents)] at h ⊢
    exact eq_of_congruent hpos h Nat.one_pos hws hspan
  | right =>
    rw [Side.canonical, topWeights_eq_reverse] at h ⊢
    have hreverse : List.Forall₂ (· ≡ · [MOD 2 ^ 64]) ws.reverse
        ((weights extents.reverse).map (1 * ·)) := by
      rw [map_one_mul, ← List.forall₂_reverse_iff, List.reverse_reverse]
      exact h
    have heq := eq_of_congruent (fun e he => hpos e (List.mem_reverse.mp he)) hreverse Nat.one_pos
      (fun w hw => hws w (List.mem_reverse.mp hw)) (by rwa [greatest_reverse hlength])
    rw [← map_one_mul (weights extents.reverse), ← heq, List.reverse_reverse]

/-! ## From layout_stride -/

namespace SideMapping

theorem ofStride_eq_some_iff {m : StrideMapping T} (hfit : ∀ e ∈ m.extents, U.Fits e)
    {m' : SideMapping side U} : ofStride side U m = some m' ↔
      Congruent m.strides (side.canonical m.extents) ∧ m'.extents = m.extents := by
  obtain ⟨extents', hextents'⟩ := m'
  rw [ofStride, dif_pos hfit, ← checkStrides_dims_iff side m.length_eq]
  split
  · rename_i hcheck
    rw [Option.some_inj, SideMapping.mk.injEq]
    exact ⟨fun h => ⟨hcheck, h.symm⟩, fun h => h.2.symm⟩
  · rename_i hcheck
    exact iff_of_false nofun fun h => hcheck h.1

theorem isSome_ofStride_iff {m : StrideMapping T} (hfit : ∀ e ∈ m.extents, U.Fits e) :
    (ofStride side U m).isSome ↔ Congruent m.strides (side.canonical m.extents) := by
  rw [Option.isSome_iff_exists]
  constructor
  · rintro ⟨m', h⟩
    exact ((ofStride_eq_some_iff hfit).mp h).1
  · intro h
    exact ⟨⟨m.extents, hfit⟩, (ofStride_eq_some_iff hfit).mpr ⟨h, rfl⟩⟩

theorem offset_eq (m : SideMapping side T) (hin : InRange indices m.extents)
    (hfits : T.Fits (dot indices (side.canonical m.extents) : ℕ))
    (hsize : dot indices (side.canonical m.extents) < 2 ^ 64) :
    m.offset indices = some ((dot indices (side.canonical m.extents) : ℕ) : ℤ) :=
  Side.computeOffset_eq hin hfits (StrideMapping.size_fits_of_lt hsize)

/-- The strides that are accepted are the products. -/
theorem weights_eq_of_congruent {m : StrideMapping T} (hpos : 0 ∉ m.extents)
    (hstrides : ∀ s ∈ m.strides, 0 ≤ s ∧ s < 2 ^ 64) (hspan : m.spanSize < 2 ^ 64)
    (h : Congruent m.strides (side.canonical m.extents)) :
    m.weights = side.canonical m.extents := by
  rw [StrideMapping.spanSize_of_pos hpos] at hspan
  rw [← StrideMapping.cast_weights fun s hs => (hstrides s hs).1, congruent_cast_iff] at h
  refine eq_canonical_of_congruent
    (fun e he => Nat.pos_of_ne_zero fun hzero => hpos (hzero ▸ he)) m.length_weights h ?_ hspan
  intro w hw
  obtain ⟨s, hs, rfl⟩ := List.mem_map.mp hw
  have hbounds := hstrides s hs
  omega

theorem isSome_ofStride_iff_of_pos {m : StrideMapping T} (hfit : ∀ e ∈ m.extents, U.Fits e)
    (hpos : 0 ∉ m.extents) (hstrides : ∀ s ∈ m.strides, 0 ≤ s ∧ s < 2 ^ 64)
    (hspan : m.spanSize < 2 ^ 64) :
    (ofStride side U m).isSome ↔ m.strides = (side.canonical m.extents).map Nat.cast := by
  have hcast := StrideMapping.cast_weights fun s hs => (hstrides s hs).1
  rw [isSome_ofStride_iff hfit]
  constructor
  · intro h
    rw [← weights_eq_of_congruent hpos hstrides hspan h, hcast]
  · intro heq
    rw [heq, congruent_cast_iff]
    exact List.forall₂_same.mpr fun s _ => Nat.ModEq.refl s

/-- What is accepted has the same offsets. -/
theorem offsets_of_ofStride {m : StrideMapping T} {m' : SideMapping side U}
    (hfit : ∀ e ∈ m.extents, U.Fits e) (h : ofStride side U m = some m')
    (hspan : T.Fits m.spanSize) (hspan' : U.Fits m.spanSize)
    (hstrides : ∀ s ∈ m.strides, 0 ≤ s ∧ s < 2 ^ 64) (hsize : m.spanSize < 2 ^ 64)
    (hin : InRange indices m.extents) :
    ∃ o : ℕ, m.offset indices = some (o : ℤ) ∧ m'.offset indices = some (o : ℤ) := by
  obtain ⟨hcongruent, hextents⟩ := (ofStride_eq_some_iff hfit).mp h
  have hpos : 0 ∉ m.extents := fun hzero => not_inRange_of_zero hzero hin
  have hproducts := weights_eq_of_congruent hpos hstrides hsize hcongruent
  have hdot := dot_le_greatest hin m.weights
  refine ⟨_, StrideMapping.offset_eq_dot (fun s hs => (hstrides s hs).1) hspan hsize.le hin, ?_⟩
  rw [StrideMapping.spanSize_of_pos hpos] at hspan' hsize
  rw [hproducts, ← hextents] at hdot hspan' hsize ⊢
  apply offset_eq m' (hextents ▸ hin)
  · exact IntegerType.fits_of_le_nat (hdot.trans (Nat.le_add_left _ 1)) hspan'
  · omega

end SideMapping

/-! ## Offsets modulo the range -/

theorem dotInt_modEq {k : ℤ} {strides strides' : List ℤ}
    (h : List.Forall₂ (· ≡ · [ZMOD k]) strides strides') (indices : List ℕ) :
    dotInt indices strides ≡ dotInt indices strides' [ZMOD k] := by
  induction h generalizing indices with
  | nil => exact Int.ModEq.refl _
  | cons hs _ ih =>
    cases indices with
    | nil => exact Int.ModEq.refl _
    | cons i is =>
      rw [dotInt_cons, dotInt_cons]
      exact (hs.mul_left _).add (ih is)

/-- Strides that are the products modulo a range give the same offsets modulo
any range that is no larger. -/
theorem offsets_modEq {w : ℕ} {m : StrideMapping T} {m' : SideMapping side U} {o o' : ℤ}
    (hT : w ≤ T.width) (hT' : T.width ≤ 64) (hU : w ≤ U.width) (hU' : U.width ≤ 64)
    (hstrides : List.Forall₂ (fun s p => s ≡ (p : ℕ) [ZMOD 2 ^ w]) m.strides
      (side.canonical m'.extents))
    (ho : m.offset indices = some o) (ho' : m'.offset indices = some o') :
    o ≡ o' [ZMOD 2 ^ w] := by
  have hdot := (LayoutStride.callOp_modEq hT' ho).2.of_dvd (pow_dvd_pow 2 hT)
  have hdot' := (Side.computeOffset_modEq hU' ho').2.of_dvd (pow_dvd_pow 2 hU)
  have hcast : List.Forall₂ (· ≡ · [ZMOD 2 ^ w]) m.strides
      ((side.canonical m'.extents).map Nat.cast) := List.forall₂_map_right_iff.mpr hstrides
  rw [← dotInt_cast] at hdot'
  exact (hdot.trans (dotInt_modEq hcast indices)).trans hdot'.symm

/-! ## To layout_stride -/

/-- The strides that a mapping returns. -/
structure StridedLayoutMapping.HasStrides (y : StridedLayoutMapping) (strides : List ℤ) :
    Prop where
  strides_eq : y.strides = some strides
  extents_fit : ∀ e ∈ y.extents, y.index.Fits e
  strides_fit : ∀ s ∈ strides, y.index.Fits s

/-- The offsets are by these strides, none of them negative. -/
structure StridedLayoutMapping.IsStrided (y : StridedLayoutMapping) (ws : List ℕ) : Prop
    extends y.HasStrides (ws.map Nat.cast) where
  offset_eq : ∃ base : ℤ, ∀ indices, InRange indices y.extents →
    y.offset indices = some (base + (dot indices ws : ℕ))

namespace StridedLayoutMapping

variable {y : StridedLayoutMapping} {strides : List ℤ}

theorem strides_eq_some_iff : y.strides = some strides ↔
    strides.length = y.extents.length ∧
      ∀ r < y.extents.length, y.stride r = some (strides.getD r 0) := by
  rw [StridedLayoutMapping.strides, mapM_eq_some_iff]
  constructor
  · intro h
    have hlength : strides.length = y.extents.length := by
      simpa using (congrArg List.length h).symm
    refine ⟨hlength, fun r hr => ?_⟩
    have hr' : r < strides.length := hlength ▸ hr
    have hentry := congrArg (·[r]?) h
    rw [List.getD_eq_getElem _ _ hr']
    simpa [hr, hr'] using hentry
  · rintro ⟨hlength, h⟩
    apply List.ext_getElem (by simp [hlength])
    intro r hr hr'
    have hr_stride : r < strides.length := by simpa using hr'
    have hstride := h r (by simpa using hr)
    rw [List.getD_eq_getElem _ _ hr_stride] at hstride
    simpa using hstride

theorem HasStrides.length_eq (hy : y.HasStrides strides) :
    strides.length = y.extents.length := (strides_eq_some_iff.mp hy.strides_eq).1

theorem HasStrides.stride_eq (hy : y.HasStrides strides) {r : ℕ} (hr : r < y.extents.length) :
    y.stride r = some (strides.getD r 0) := (strides_eq_some_iff.mp hy.strides_eq).2 r hr

end StridedLayoutMapping

namespace SideMapping

variable {m : SideMapping side T} {strides : List ℤ}

/-- The strides are the products modulo the range of the index type. -/
theorem strides_modEq (h : m.toStrided.strides = some strides) :
    (∀ s ∈ strides, T.Fits s) ∧
      List.Forall₂ (fun s p => s ≡ (p : ℕ) [ZMOD 2 ^ T.width]) strides
        (side.canonical m.extents) := by
  obtain ⟨hlength, hstrides⟩ := StridedLayoutMapping.strides_eq_some_iff.mp h
  have hcanonical := Side.length_canonical side m.extents
  have hentry {r : ℕ} (hr : r < strides.length) : T.Fits strides[r] ∧
      strides[r] ≡ ((side.canonical m.extents).getD r 0 : ℕ) [ZMOD 2 ^ T.width] := by
    have hr' : r < m.extents.length := lt_of_lt_of_eq hr hlength
    have hstride := Side.stride_modEq hr' (hstrides r hr')
    rwa [List.getD_eq_getElem _ _ hr] at hstride
  constructor
  · intro s hs
    obtain ⟨r, hr, rfl⟩ := List.mem_iff_getElem.mp hs
    exact (hentry hr).1
  · rw [List.forall₂_iff_get]
    refine ⟨hlength.trans hcanonical.symm, fun r hr hr' => ?_⟩
    have hstride := (hentry hr).2
    rwa [List.getD_eq_getElem _ _ hr'] at hstride

theorem hasStrides (h : m.toStrided.strides = some strides) : m.toStrided.HasStrides strides :=
  ⟨h, m.extents_fit, (strides_modEq h).1⟩

theorem strides_eq (hfit : ∀ p ∈ side.canonical m.extents, T.Fits p) :
    m.toStrided.strides = some ((side.canonical m.extents).map Nat.cast) := by
  rw [StridedLayoutMapping.strides_eq_some_iff, List.length_map, Side.length_canonical]
  refine ⟨rfl, fun r hr => ?_⟩
  have hr' : r < (side.canonical m.extents).length := by rwa [Side.length_canonical]
  have hstride := Side.stride_eq hfit hr
  rw [List.getD_eq_getElem _ _ hr'] at hstride
  rw [List.getD_eq_getElem _ _ (by rwa [List.length_map]), List.getElem_map]
  exact hstride

/-- In an unsigned type the strides are always computed. -/
theorem exists_strides (m : SideMapping side T) (hunsigned : T.promote.signed = false) :
    ∃ strides, m.toStrided.strides = some strides := by
  apply exists_mapM
  intro r _
  cases side with
  | left => exact exists_foldlM_mulAssign hunsigned _ _
  | right => exact exists_foldlM_mulAssign hunsigned _ _

/-- The mappings by products are strided, if the offsets are representable. -/
theorem isStrided (hfit : ∀ p ∈ side.canonical m.extents, T.Fits p)
    (hspan : ∀ indices, InRange indices m.extents →
      T.Fits (dot indices (side.canonical m.extents) : ℕ) ∧
        dot indices (side.canonical m.extents) < 2 ^ 64) :
    m.toStrided.IsStrided (side.canonical m.extents) := by
  refine ⟨hasStrides (strides_eq hfit), 0, fun indices hin => ?_⟩
  obtain ⟨hfits, hsize⟩ := hspan indices hin
  rw [Int.zero_add]
  exact m.offset_eq hin hfits hsize

end SideMapping

theorem fillStrides_eq {y : StridedLayoutMapping} {strides : List ℤ} (hy : y.HasStrides strides) :
    fillStrides U y = some (strides.map U.convert) := by
  rw [fillStrides, mapM_eq_some_iff]
  apply List.ext_getElem
  · rw [List.length_map, List.length_range, List.length_map, List.length_map, hy.length_eq]
  · intro r hr _
    rw [List.length_map, List.length_range] at hr
    have hr' : r < strides.length := hy.length_eq ▸ hr
    have hget : strides.getD r 0 = strides[r] := List.getD_eq_getElem _ _ hr'
    simp only [List.getElem_map, List.getElem_range, hy.stride_eq hr, hget, Option.bind_eq_bind,
      Option.bind_some]
    rfl

theorem fits_convert_strides {strides : List ℤ} : ∀ s ∈ strides.map U.convert, U.Fits s := by
  intro s hs
  obtain ⟨s, -, rfl⟩ := List.mem_map.mp hs
  exact U.fits_convert s

theorem map_convert_of_fits {strides : List ℤ} (hfit : ∀ s ∈ strides, U.Fits s) :
    strides.map U.convert = strides := by
  rw [List.map_congr_left fun s hs => IntegerType.convert_of_fits (hfit s hs), List.map_id']

theorem ofStrided_eq {y : StridedLayoutMapping} {strides : List ℤ} (hy : y.HasStrides strides)
    (hextents : ∀ e ∈ y.extents, U.Fits e) :
    StrideMapping.ofStrided U y = some ⟨y.extents, strides.map U.convert,
      (List.length_map ..).trans hy.length_eq, hextents, fits_convert_strides⟩ := by
  rw [StrideMapping.ofStrided, fillStrides_eq hy, Option.bind_eq_bind, Option.bind_some,
    dif_pos ⟨(List.length_map ..).trans hy.length_eq, hextents, fits_convert_strides⟩]

/-! ## Equality decides strides -/

theorem extentsEqual_iff {xs ys : List ℕ} (hxs : ∀ x ∈ xs, T.Fits x) (hys : ∀ y ∈ ys, U.Fits y)
    (hlength : xs.length = ys.length) : extentsEqual T U xs ys = true ↔ xs = ys := by
  induction xs generalizing ys with
  | nil =>
    rw [List.length_eq_zero_iff.mp hlength.symm]
    exact iff_of_true rfl rfl
  | cons x xs ih =>
    obtain ⟨y, ys, rfl⟩ := List.exists_cons_of_length_eq_add_one hlength.symm
    obtain ⟨hx, hxs'⟩ := List.forall_mem_cons.mp hxs
    obtain ⟨hy, hys'⟩ := List.forall_mem_cons.mp hys
    have hrest := ih hxs' hys' (Nat.succ.inj hlength)
    rw [extentsEqual] at hrest ⊢
    rw [List.zip_cons_cons, List.all_cons, Bool.and_eq_true, hrest,
      Extents.valuesEqual_iff hx hy (Int.natCast_nonneg x) (Int.natCast_nonneg y), Nat.cast_inj,
      List.cons.injEq]

/-- Within one type values compare equal only if they are. -/
theorem eq_of_valuesEqual {x y : ℤ} (hx : T.Fits x) (hy : T.Fits y)
    (h : Extents.valuesEqual T T x y = true) : x = y := by
  rw [Extents.valuesEqual, IntegerType.common_self, beq_iff_eq,
    IntegerType.convert_of_fits (IntegerType.fits_promote hx),
    IntegerType.convert_of_fits (IntegerType.fits_promote hy)] at h
  exact h

theorem stridesEqual_self (T U : IntegerType) (xs : List ℤ) : stridesEqual T U xs xs = true := by
  induction xs with
  | nil => rfl
  | cons x xs ih =>
    rw [stridesEqual] at ih ⊢
    rw [List.zip_cons_cons, List.all_cons, ih, Bool.and_true]
    exact beq_self_eq_true _

theorem eq_of_stridesEqual {xs ys : List ℤ}
    (hvalues : ∀ x ∈ xs, ∀ y ∈ ys, Extents.valuesEqual T U x y = true → x = y)
    (hlength : xs.length = ys.length) (h : stridesEqual T U xs ys = true) : xs = ys := by
  induction xs generalizing ys with
  | nil => exact (List.length_eq_zero_iff.mp hlength.symm).symm
  | cons x xs ih =>
    obtain ⟨y, ys, rfl⟩ := List.exists_cons_of_length_eq_add_one hlength.symm
    rw [stridesEqual, List.zip_cons_cons, List.all_cons, Bool.and_eq_true] at h
    obtain ⟨hhead, htail⟩ := h
    rw [hvalues x List.mem_cons_self y List.mem_cons_self hhead,
      ih (fun x hx y hy => hvalues x (List.mem_cons_of_mem _ hx) y (List.mem_cons_of_mem _ hy))
        (Nat.succ.inj hlength) htail]

theorem stridesEqual_iff {xs ys : List ℤ} (hlength : xs.length = ys.length) :
    stridesEqual T U xs ys = true ↔
      ∀ r < xs.length, Extents.valuesEqual T U (xs.getD r 0) (ys.getD r 0) = true := by
  induction xs generalizing ys with
  | nil =>
    rw [List.length_eq_zero_iff.mp hlength.symm]
    exact iff_of_true rfl nofun
  | cons x xs ih =>
    obtain ⟨y, ys, rfl⟩ := List.exists_cons_of_length_eq_add_one hlength.symm
    have hrest := ih (Nat.succ.inj hlength)
    rw [stridesEqual] at hrest ⊢
    rw [List.zip_cons_cons, List.all_cons, Bool.and_eq_true, hrest]
    constructor
    · rintro ⟨hhead, htail⟩ r hr
      cases r with
      | zero => exact hhead
      | succ r => exact htail r (Nat.lt_of_succ_lt_succ hr)
    · intro h
      exact ⟨h 0 (Nat.zero_lt_succ _), fun r hr => h (r + 1) (Nat.succ_lt_succ hr)⟩

namespace StrideMapping

variable {x : StrideMapping T} {y : StridedLayoutMapping} {strides : List ℤ}

theorem stridesMatch_false (rs : List ℕ) : stridesMatch x y rs false = some false := by
  induction rs with
  | nil => rfl
  | cons r rs ih => exact ih

theorem stridesMatch_iff {rs : List ℕ} :
    stridesMatch x y rs true = some true ↔ ∀ r ∈ rs, ∃ s, y.stride r = some s ∧
      Extents.valuesEqual T y.index (x.strides.getD r 0) s = true := by
  induction rs with
  | nil => exact iff_of_true rfl (List.forall_mem_nil _)
  | cons r rs ih =>
    rw [stridesMatch, List.forall_mem_cons, ← ih, Option.bind_eq_bind, Option.bind_eq_some_iff]
    constructor
    · rintro ⟨s, hs, hrest⟩
      cases hequal : Extents.valuesEqual T y.index (x.strides.getD r 0) s with
      | false =>
        rw [hequal, stridesMatch_false] at hrest
        exact absurd (Option.some.inj hrest) Bool.false_ne_true
      | true =>
        rw [hequal] at hrest
        exact ⟨⟨s, hs, hequal⟩, hrest⟩
    · rintro ⟨⟨s, hs, hequal⟩, hrest⟩
      refine ⟨s, hs, ?_⟩
      rw [hequal]
      exact hrest

theorem eqStrided_eq_true_iff : x.eqStrided y = some true ↔
    x.extents.length = y.extents.length ∧
      stridesMatch x y (List.range x.extents.length) true = some true ∧
      extentsEqual T y.index x.extents y.extents = true ∧
      y.offset (List.replicate y.extents.length 0) = some 0 := by
  by_cases hlength : x.extents.length = y.extents.length
  · rw [eqStrided, if_pos hlength, Option.bind_eq_bind, Option.bind_eq_some_iff,
      and_iff_right hlength]
    constructor
    · rintro ⟨answer, hanswer, h⟩
      split at h
      · rename_i hequal
        rw [Option.bind_eq_bind, Option.bind_eq_some_iff] at h
        obtain ⟨first, hfirst, h⟩ := h
        have hand := Option.some.inj h
        rw [Bool.and_eq_true, beq_iff_eq] at hand
        obtain ⟨rfl, rfl⟩ := hand
        exact ⟨hanswer, hequal, hfirst⟩
      · exact absurd (Option.some.inj h) Bool.false_ne_true
    · rintro ⟨hanswer, hequal, hfirst⟩
      refine ⟨true, hanswer, ?_⟩
      rw [if_pos hequal, hfirst]
      rfl
  · rw [eqStrided, if_neg hlength]
    exact iff_of_false nofun fun h => hlength h.1

/-- What the comparison with a mapping that has strides looks at. -/
theorem eqStrided_iff (hy : y.HasStrides strides) :
    x.eqStrided y = some true ↔ x.extents = y.extents ∧
      stridesEqual T y.index x.strides strides = true ∧
      y.offset (List.replicate y.extents.length 0) = some 0 := by
  rw [eqStrided_eq_true_iff]
  by_cases hlength : x.extents.length = y.extents.length
  · have hextents := extentsEqual_iff x.extents_fit hy.extents_fit hlength
    have hstrides : stridesMatch x y (List.range x.extents.length) true = some true ↔
        stridesEqual T y.index x.strides strides = true := by
      rw [stridesMatch_iff, stridesEqual_iff (by rw [x.length_eq, hlength, hy.length_eq]),
        x.length_eq]
      constructor
      · intro h r hr
        obtain ⟨s, hs, hequal⟩ := h r (List.mem_range.mpr hr)
        rw [hy.stride_eq (hlength ▸ hr)] at hs
        rwa [Option.some.inj hs]
      · intro h r hr
        have hr' := List.mem_range.mp hr
        exact ⟨_, hy.stride_eq (hlength ▸ hr'), h r hr'⟩
    rw [hstrides, hextents, and_iff_right hlength]
    exact and_left_comm
  · exact iff_of_false (fun h => hlength h.1) fun h => hlength (congrArg List.length h.1)

/-- A mapping that compares equal has computed its strides. -/
theorem exists_strides_of_eqStrided (h : x.eqStrided y = some true) :
    ∃ strides, y.strides = some strides := by
  obtain ⟨hlength, hmatch, -, -⟩ := eqStrided_eq_true_iff.mp h
  apply exists_mapM
  intro r hr
  rw [← hlength] at hr
  obtain ⟨s, hs, -⟩ := stridesMatch_iff.mp hmatch r hr
  exact ⟨s, hs⟩

theorem inRange_zeros (hin : InRange indices extents) :
    InRange (List.replicate extents.length 0) extents := by
  induction hin with
  | nil => exact List.Forall₂.nil
  | cons hi _ ih => exact List.Forall₂.cons (Nat.zero_lt_of_lt hi) ih

theorem dot_zeros (n : ℕ) (ws : List ℕ) : dot (List.replicate n 0) ws = 0 := by
  induction n generalizing ws with
  | zero => rfl
  | succ n ih =>
    cases ws with
    | nil => rfl
    | cons w ws => rw [List.replicate_succ, dot_cons, Nat.zero_mul, ih]

/-- Mappings that compare equal have the same offsets. -/
theorem offsets_of_eqStrided {ws : List ℕ} (hy : y.IsStrided ws)
    (hnonneg : ∀ s ∈ x.strides, 0 ≤ s) (hspan : T.Fits x.spanSize)
    (hsize : x.spanSize ≤ 2 ^ 64) (h : x.eqStrided y = some true) :
    x.extents = y.extents ∧
      ∀ indices, InRange indices x.extents → x.offset indices = y.offset indices := by
  obtain ⟨hextents, hequal, hfirst⟩ := (eqStrided_iff hy.toHasStrides).mp h
  have hvalues : ∀ s ∈ x.strides, ∀ s' ∈ ws.map (Nat.cast : ℕ → ℤ),
      Extents.valuesEqual T y.index s s' = true → s = s' := by
    intro s hs s' hs' hequal
    obtain ⟨w, -, rfl⟩ := List.mem_map.mp hs'
    exact (Extents.valuesEqual_iff (x.strides_fit s hs) (hy.strides_fit _ hs') (hnonneg s hs)
      (Int.natCast_nonneg w)).mp hequal
  have hstrides := eq_of_stridesEqual hvalues
    (by rw [x.length_eq, hextents, hy.toHasStrides.length_eq]) hequal
  have hweights : x.weights = ws := by
    rw [weights, hstrides, List.map_map]
    exact List.map_id ws
  refine ⟨hextents, fun indices hin => ?_⟩
  obtain ⟨base, hbase⟩ := hy.offset_eq
  have hin' : InRange indices y.extents := hextents ▸ hin
  rw [hbase _ (inRange_zeros hin'), dot_zeros, Nat.cast_zero, Int.add_zero,
    Option.some_inj] at hfirst
  rw [offset_eq_dot hnonneg hspan hsize hin, hbase _ hin', hfirst, Int.zero_add, hweights]

/-- Within one index type the offsets are the same wherever both are computed. -/
theorem offsets_of_eqStrided_self {m : SideMapping side T} (hT : T.width ≤ 64)
    (h : x.eqStrided m.toStrided = some true) :
    x.extents = m.extents ∧ ∀ indices o o', x.offset indices = some o →
      m.offset indices = some o' → o = o' := by
  obtain ⟨strides, hstrides⟩ := exists_strides_of_eqStrided h
  obtain ⟨hfit, hmod⟩ := SideMapping.strides_modEq hstrides
  have hm := SideMapping.hasStrides hstrides
  obtain ⟨hextents, hequal, -⟩ := (eqStrided_iff hm).mp h
  have hsame : x.strides = strides := by
    apply eq_of_stridesEqual (U := T) _ _ hequal
    · exact fun s hs s' hs' => eq_of_valuesEqual (x.strides_fit s hs) (hfit s' hs')
    · rw [x.length_eq, hextents, hm.length_eq]
  refine ⟨hextents, fun indices o o' ho ho' => ?_⟩
  rw [← hsame] at hmod
  have hoffsets := offsets_modEq le_rfl hT le_rfl hT hmod ho ho'
  rw [IntegerType.eq_convert_of_modEq (LayoutStride.callOp_modEq hT ho).1 hoffsets,
    IntegerType.convert_of_fits (Side.computeOffset_modEq hT ho').1]

theorem eqImpl_eq_true_iff {y : StrideMapping U} : x.eqImpl y = some true ↔
    x.extents = y.extents ∧ stridesEqual T U x.strides y.strides = true := by
  by_cases hlength : x.extents.length = y.extents.length
  · rw [eqImpl, if_pos hlength, Option.some_inj, Bool.and_eq_true,
      extentsEqual_iff x.extents_fit y.extents_fit hlength]
    exact and_comm
  · rw [eqImpl, if_neg hlength]
    exact iff_of_false nofun fun h => hlength (congrArg List.length h.1)

theorem offsets_of_eqImpl {y : StrideMapping U} (hnonneg : ∀ s ∈ x.strides, 0 ≤ s)
    (hnonneg' : ∀ s ∈ y.strides, 0 ≤ s) (hspan : T.Fits x.spanSize)
    (hspan' : U.Fits y.spanSize) (hsize : x.spanSize ≤ 2 ^ 64) (h : x.eqImpl y = some true) :
    x.extents = y.extents ∧
      ∀ indices, InRange indices x.extents → x.offset indices = y.offset indices := by
  obtain ⟨hextents, hequal⟩ := eqImpl_eq_true_iff.mp h
  have hstrides : x.strides = y.strides := by
    apply eq_of_stridesEqual _ _ hequal
    · intro s hs s' hs' hvalues
      exact (Extents.valuesEqual_iff (x.strides_fit s hs) (y.strides_fit s' hs') (hnonneg s hs)
        (hnonneg' s' hs')).mp hvalues
    · rw [x.length_eq, y.length_eq, hextents]
  have hweights : x.weights = y.weights := by rw [weights, weights, hstrides]
  have hspans : y.spanSize = x.spanSize := by rw [spanSize, spanSize, hextents, hweights]
  refine ⟨hextents, fun indices hin => ?_⟩
  rw [offset_eq_dot hnonneg hspan hsize hin, hweights,
    offset_eq_dot hnonneg' hspan' (hspans ▸ hsize) (hextents ▸ hin)]

/-- Within one index type, mappings that compare equal are the same. -/
theorem eq_of_eqImpl {y : StrideMapping T} (h : x.eqImpl y = some true) : x = y := by
  obtain ⟨hextents, hequal⟩ := eqImpl_eq_true_iff.mp h
  have hstrides : x.strides = y.strides := by
    apply eq_of_stridesEqual _ _ hequal
    · exact fun s hs s' hs' => eq_of_valuesEqual (x.strides_fit s hs) (y.strides_fit s' hs')
    · rw [x.length_eq, y.length_eq, hextents]
  cases x
  cases y
  exact (StrideMapping.mk.injEq ..).mpr ⟨hextents, hstrides⟩

end StrideMapping

/-! ## Conversions keep the meaning -/

/-- The offsets are converted, wherever both are computed. -/
def OffsetsConvert (T U : IntegerType) (offset offset' : List ℕ → Option ℤ) : Prop :=
  U.width ≤ T.width → T.width ≤ 64 →
    ∀ indices o o', offset indices = some o → offset' indices = some o' → o' = U.convert o

/-- What a `layout_left` or `layout_right` mapping with these strides becomes. -/
structure ToStride (U : IntegerType) (m : SideMapping side T) (strides : List ℤ)
    (strided : StrideMapping U) : Prop where
  converted : StrideMapping.ofStrided U m.toStrided = some strided
  equal : (∀ s ∈ strides, U.Fits s) → strided.eqStrided m.toStrided = some true
  offsets_eq : ∀ indices, InRange indices m.extents →
    T.Fits (dot indices (side.canonical m.extents) : ℕ) →
    U.Fits (dot indices (side.canonical m.extents) : ℕ) →
    dot indices (side.canonical m.extents) < 2 ^ 64 →
    ∃ o : ℕ, m.offset indices = some (o : ℤ) ∧ strided.offset indices = some (o : ℤ)
  offsets_convert : OffsetsConvert T U m.offset strided.offset
  back_iff : SideMapping.ofStride side T strided = some m ↔
    Congruent (strides.map U.convert) (side.canonical m.extents)

/-- When a `layout_stride` mapping is accepted, and what it becomes. -/
structure FromStride (side : Side) (U : IntegerType) (m : StrideMapping T) : Prop where
  accepted_iff : (SideMapping.ofStride side U m).isSome ↔
    Congruent m.strides (side.canonical m.extents)
  extents_eq : ∀ m', SideMapping.ofStride side U m = some m' → m'.extents = m.extents
  offsets_convert : ∀ m', SideMapping.ofStride side U m = some m' →
    OffsetsConvert T U m.offset m'.offset
  accepted_iff_of_pos : (∀ s ∈ m.strides, 0 ≤ s ∧ s < 2 ^ 64) → m.spanSize < 2 ^ 64 →
    0 ∉ m.extents → ((SideMapping.ofStride side U m).isSome ↔
      m.strides = (side.canonical m.extents).map Nat.cast)
  offsets_eq : (∀ s ∈ m.strides, 0 ≤ s ∧ s < 2 ^ 64) → m.spanSize < 2 ^ 64 →
    T.Fits m.spanSize → U.Fits m.spanSize → ∀ m', SideMapping.ofStride side U m = some m' →
      ∀ indices, InRange indices m.extents →
        ∃ o : ℕ, m.offset indices = some (o : ℤ) ∧ m'.offset indices = some (o : ℤ)

/-- Equal extents, and equal offsets everywhere. -/
def SameMapping (extents extents' : List ℕ) (offset offset' : List ℕ → Option ℤ) : Prop :=
  extents = extents' ∧ ∀ indices, InRange indices extents → offset indices = offset' indices

/-- What it means that a `layout_stride` mapping compares equal. -/
structure EqualityMeans (side : Side) (U : IntegerType) (x : StrideMapping T) : Prop where
  eq_strided : (∀ s ∈ x.strides, 0 ≤ s) → T.Fits x.spanSize → x.spanSize ≤ 2 ^ 64 →
    ∀ y ws, y.IsStrided ws → x.eqStrided y = some true →
      SameMapping x.extents y.extents x.offset y.offset
  eq_side : (∀ s ∈ x.strides, 0 ≤ s) → T.Fits x.spanSize → x.spanSize ≤ 2 ^ 64 →
    ∀ m : SideMapping side U, (∀ p ∈ side.canonical m.extents, U.Fits p) →
      (∀ indices, InRange indices m.extents →
        U.Fits (dot indices (side.canonical m.extents) : ℕ) ∧
          dot indices (side.canonical m.extents) < 2 ^ 64) →
      x.eqStrided m.toStrided = some true → SameMapping x.extents m.extents x.offset m.offset
  eq_stride : (∀ s ∈ x.strides, 0 ≤ s) → T.Fits x.spanSize → x.spanSize ≤ 2 ^ 64 →
    ∀ y : StrideMapping U, (∀ s ∈ y.strides, 0 ≤ s) → U.Fits y.spanSize →
      x.eqImpl y = some true → SameMapping x.extents y.extents x.offset y.offset
  eq_side_self : T.width ≤ 64 → ∀ m : SideMapping side T, x.eqStrided m.toStrided = some true →
    x.extents = m.extents ∧ ∀ indices o o', x.offset indices = some o →
      m.offset indices = some o' → o = o'
  eq_stride_self : ∀ y : StrideMapping T, x.eqImpl y = some true → x = y

namespace SideMapping

variable {m : SideMapping side T} {strides : List ℤ}

/-- A product that is representable in both types is converted as it is. -/
theorem convert_stride_eq (hstrides : m.toStrided.strides = some strides) {r : ℕ}
    (hr : r < m.extents.length) (hfits : T.Fits ((side.canonical m.extents).getD r 0 : ℕ))
    (hfits' : U.Fits ((side.canonical m.extents).getD r 0 : ℕ)) :
    U.convert (strides.getD r 0) = ((side.canonical m.extents).getD r 0 : ℕ) := by
  obtain ⟨-, hentries⟩ := StridedLayoutMapping.strides_eq_some_iff.mp hstrides
  obtain ⟨hstride_fits, hmod⟩ := Side.stride_modEq hr (hentries r hr)
  have hstride := IntegerType.eq_convert_of_modEq hstride_fits hmod
  rw [hstride, IntegerType.convert_of_fits hfits, IntegerType.convert_of_fits hfits']

/-- An index with a representable offset uses no stride that has wrapped around. -/
theorem offset_of_strides {strided : StrideMapping U}
    (hstrides : m.toStrided.strides = some strides)
    (hstrided : strided.strides = strides.map U.convert)
    (hin : InRange indices m.extents) (hfits : T.Fits (dot indices (side.canonical m.extents) : ℕ))
    (hfits' : U.Fits (dot indices (side.canonical m.extents) : ℕ))
    (hsize : dot indices (side.canonical m.extents) < 2 ^ 64) :
    strided.offset indices = some ((dot indices (side.canonical m.extents) : ℕ) : ℤ) := by
  have hlength : strides.length = m.extents.length := (hasStrides hstrides).length_eq
  have hcanonical := Side.length_canonical side m.extents
  have hget (r : ℕ) : ((side.canonical m.extents).map (Nat.cast : ℕ → ℤ)).getD r 0 =
      ((side.canonical m.extents).getD r 0 : ℕ) := List.getD_map _ 0 Nat.cast
  have hget' (r : ℕ) : (strides.map U.convert).getD r 0 = U.convert (strides.getD r 0) := by
    rw [← List.getD_map _ 0 U.convert, IntegerType.convert_of_fits U.fits_zero]
  have hcongr : LayoutStride.callOpImpl U (strides.map U.convert) indices =
      LayoutStride.callOpImpl U ((side.canonical m.extents).map Nat.cast) indices := by
    apply LayoutStride.callOpImpl_congr
    · rw [List.length_map, List.length_map, hcanonical, hlength]
    · intro r
      rw [hget, hget']
      by_cases hzero : indices.getD r 0 = 0
      · exact Or.inl hzero
      · by_cases hr : r < m.extents.length
        · have hle : (side.canonical m.extents).getD r 0 ≤
              dot indices (side.canonical m.extents) :=
            (Nat.le_mul_of_pos_left _ (Nat.pos_of_ne_zero hzero)).trans (getD_mul_le_dot _ _ r)
          exact Or.inr (convert_stride_eq hstrides hr (IntegerType.fits_of_le_nat hle hfits)
            (IntegerType.fits_of_le_nat hle hfits'))
        · have hr' := not_lt.mp hr
          rw [List.getD_eq_default strides 0 (hlength.trans_le hr'),
            List.getD_eq_default (side.canonical m.extents) 0 (hcanonical.trans_le hr')]
          exact Or.inr (IntegerType.convert_of_fits U.fits_zero)
  have hindices : indices.length = (side.canonical m.extents).length := by
    rw [hin.length_eq, Side.length_canonical]
  have heq := LayoutStride.callOp_eq hindices hfits' (StrideMapping.size_fits_of_lt hsize)
  rwa [StrideMapping.offset, hstrided, LayoutStride.callOp, hcongr]

/-- Strides that are converted modulo the range of `size_t`, or exactly. -/
theorem congruent_convert (hstrides : m.toStrided.strides = some strides)
    (hproducts : 64 ≤ T.width ∨ ∀ p ∈ side.canonical m.extents, T.Fits p)
    (hconvert : 64 ≤ U.width ∨ ∀ s ∈ strides, U.Fits s) :
    Congruent (strides.map U.convert) (side.canonical m.extents) := by
  have hcongruent : Congruent strides (side.canonical m.extents) := by
    rcases hproducts with hwidth | hfit
    · exact (strides_modEq hstrides).2.imp fun _ _ h => h.of_dvd (pow_dvd_pow 2 hwidth)
    · obtain rfl := Option.some.inj (hstrides.symm.trans (strides_eq hfit))
      rw [congruent_cast_iff]
      exact List.forall₂_same.mpr fun p _ => Nat.ModEq.refl p
  rcases hconvert with hwidth | hfit
  · apply List.forall₂_map_left_iff.mpr
    apply List.Forall₂.imp _ hcongruent
    intro s _ h
    exact ((IntegerType.convert_modEq le_rfl s).of_dvd (pow_dvd_pow 2 hwidth)).trans h
  · rwa [map_convert_of_fits hfit]

/-- The way to `layout_stride` and back. -/
theorem exists_toStride (hstrides : m.toStrided.strides = some strides)
    (hextents : ∀ e ∈ m.extents, U.Fits e) :
    ∃ strided : StrideMapping U, ToStride U m strides strided := by
  have hm := hasStrides hstrides
  have hround {strided : StrideMapping U} (hstrides' : strided.strides = strides.map U.convert)
      (hextents' : strided.extents = m.extents) : ofStride side T strided = some m ↔
        Congruent (strides.map U.convert) (side.canonical m.extents) := by
    rw [ofStride_eq_some_iff (hextents' ▸ m.extents_fit), hstrides', hextents', and_iff_left rfl]
  refine ⟨_, ofStrided_eq hm hextents, ?_, ?_, ?_, hround rfl rfl⟩
  · intro hfit
    have hequal : stridesEqual U T (strides.map U.convert) strides = true := by
      rw [map_convert_of_fits hfit]
      exact stridesEqual_self U T strides
    exact (StrideMapping.eqStrided_iff hm).mpr
      ⟨rfl, hequal, Side.computeOffset_zeros side T m.extents⟩
  · intro indices hin hfits hfits' hsize
    exact ⟨_, m.offset_eq hin hfits hsize,
      offset_of_strides hstrides rfl hin hfits hfits' hsize⟩
  · intro hle hT indices o o' ho ho'
    have hmod : List.Forall₂ (fun s p => s ≡ (p : ℕ) [ZMOD 2 ^ U.width]) (strides.map U.convert)
        (side.canonical m.extents) := List.forall₂_map_left_iff.mpr
      ((strides_modEq hstrides).2.imp fun s _ h =>
        (IntegerType.convert_modEq le_rfl s).trans (h.of_dvd (pow_dvd_pow 2 hle)))
    have hoffsets := offsets_modEq le_rfl (hle.trans hT) hle hT hmod ho' ho
    exact IntegerType.eq_convert_of_modEq (LayoutStride.callOp_modEq (hle.trans hT) ho').1 hoffsets

/-- What is accepted has converted offsets, also where they wrap around. -/
theorem offsetsConvert_of_ofStride {m : StrideMapping T} {m' : SideMapping side U}
    (hfit : ∀ e ∈ m.extents, U.Fits e) (h : ofStride side U m = some m') :
    OffsetsConvert T U m.offset m'.offset := by
  intro hle hT indices o o' ho ho'
  obtain ⟨hcongruent, hextents⟩ := (ofStride_eq_some_iff hfit).mp h
  have hmod := hcongruent.imp
    fun _ _ (h : _ ≡ _ [ZMOD 2 ^ 64]) => h.of_dvd (pow_dvd_pow 2 (hle.trans hT))
  rw [← hextents] at hmod
  have hoffsets := offsets_modEq hle hT le_rfl (hle.trans hT) hmod ho ho'
  exact IntegerType.eq_convert_of_modEq (Side.computeOffset_modEq (hle.trans hT) ho').1
    hoffsets.symm

end SideMapping

/-- Conversions and equality, for index types of any width.

A `layout_left` or `layout_right` mapping whose strides are computed, in a signed
type without overflow, becomes a `layout_stride` mapping that has the same
offsets, compares equal if its index type holds the strides, and is converted
back exactly if its strides are the products of the extents modulo the range of
`size_t`.  A `layout_stride` mapping is accepted exactly if its strides are these
products modulo that range, which are the products themselves where no extent is
zero and the span is representable; the offsets are then the same.  Mappings that
compare equal have the same extents and offsets. -/
theorem conversions_keep_meaning (side : Side) (T U : IntegerType) :
    (∀ m : SideMapping side T,
      (T.promote.signed = false → ∃ strides, m.toStrided.strides = some strides) ∧
      ((∀ p ∈ side.canonical m.extents, T.Fits p) →
        m.toStrided.strides = some ((side.canonical m.extents).map Nat.cast)) ∧
      ∀ strides, m.toStrided.strides = some strides → (∀ e ∈ m.extents, U.Fits e) →
        (∃ strided : StrideMapping U, ToStride U m strides strided) ∧
        ((64 ≤ T.width ∨ ∀ p ∈ side.canonical m.extents, T.Fits p) →
          (64 ≤ U.width ∨ ∀ s ∈ strides, U.Fits s) →
          Congruent (strides.map U.convert) (side.canonical m.extents))) ∧
    (∀ m : StrideMapping T, (∀ e ∈ m.extents, U.Fits e) → FromStride side U m) ∧
    ∀ x : StrideMapping T, EqualityMeans side U x := by
  refine ⟨?_, ?_, ?_⟩
  · intro m
    refine ⟨m.exists_strides, SideMapping.strides_eq, fun strides hstrides hextents => ?_⟩
    exact ⟨SideMapping.exists_toStride hstrides hextents,
      SideMapping.congruent_convert hstrides⟩
  · intro m hfit
    refine ⟨SideMapping.isSome_ofStride_iff hfit,
      fun m' h => ((SideMapping.ofStride_eq_some_iff hfit).mp h).2,
      fun m' h => SideMapping.offsetsConvert_of_ofStride hfit h,
      fun hstrides hsize hpos =>
        SideMapping.isSome_ofStride_iff_of_pos hfit hpos hstrides hsize, ?_⟩
    intro hstrides hsize hspan hspan' m' h indices hin
    exact SideMapping.offsets_of_ofStride hfit h hspan hspan' hstrides hsize hin
  · intro x
    refine ⟨?_, ?_, ?_, ?_, fun y h => StrideMapping.eq_of_eqImpl h⟩
    · intro hnonneg hspan hsize y ws hy h
      exact StrideMapping.offsets_of_eqStrided hy hnonneg hspan hsize h
    · intro hnonneg hspan hsize m hfit hoffsets h
      exact StrideMapping.offsets_of_eqStrided (SideMapping.isStrided hfit hoffsets) hnonneg hspan
        hsize h
    · intro hnonneg hspan hsize y hnonneg' hspan' h
      exact StrideMapping.offsets_of_eqImpl hnonneg hnonneg' hspan hspan' hsize h
    · intro hT m h
      exact StrideMapping.offsets_of_eqStrided_self hT h

/-- Extents whose third stride has wrapped around, on the way to `layout_stride`
and back, and a matrix that comes from there. -/
theorem conversions_keep_meaning_wrapped :
    let m : SideMapping .left .size := ⟨[2 ^ 32, 2 ^ 32 + 1, 0], by decide⟩
    let matrix : StrideMapping .size := ⟨[2, 3], [1, 2], rfl, by decide, by decide⟩
    (∃ strided : StrideMapping .size,
      StrideMapping.ofStrided .size m.toStrided = some strided ∧
      strided.eqStrided m.toStrided = some true ∧
      SideMapping.ofStride .left .size strided = some m) ∧
    (SideMapping.ofStride .left .size matrix).isSome := by
  intro m matrix
  obtain ⟨hto, hof, -⟩ := conversions_keep_meaning .left .size .size
  obtain ⟨strides, hstrides⟩ := (hto m).1 rfl
  have hfit := (SideMapping.strides_modEq hstrides).1
  obtain ⟨⟨strided, hstrided⟩, hcongruent⟩ := (hto m).2.2 strides hstrides m.extents_fit
  have hback := hstrided.back_iff.mpr (hcongruent (Or.inl (by decide)) (Or.inr hfit))
  have haccepted := (hof matrix (by decide)).accepted_iff_of_pos (by decide) (by decide) (by decide)
  exact ⟨⟨strided, hstrided.converted, hstrided.equal hfit, hback⟩, haccepted.mpr (by decide)⟩

/-- The product of the first two extents is `2 ^ 64 + 2 ^ 32`. -/
def wrappedProduct : StrideMapping .size where
  extents := [2 ^ 32, 2 ^ 32 + 1, 0]
  strides := [1, 2 ^ 32, 2 ^ 32]
  length_eq := rfl
  extents_fit := by decide
  strides_fit := by decide

/-- The product of the first two extents is `2 ^ 32`. -/
def narrowProduct (T : IntegerType) (h : ∀ e ∈ ([65536, 65536, 0] : List ℕ), T.Fits e) :
    SideMapping .left T := ⟨[65536, 65536, 0], h⟩

/-- Behind a zero extent the check accepts a stride that is not the product; the
strides of `layout_left` do not all exist in a signed type, nor compare equal
after a conversion to it, and wrapped strides of 32 bits are rejected on the way
back. -/
theorem wrappedProduct_accepted :
    (wrappedProduct.Precondition ∧ (SideMapping.ofStride .left .size wrappedProduct).isSome ∧
      wrappedProduct.strides ≠ (Side.left.canonical wrappedProduct.extents).map Nat.cast) ∧
    StrideMapping.ofStrided .int (narrowProduct .int (by decide)).toStrided = none ∧
    (let wide := (narrowProduct .size (by decide)).toStrided
    (StrideMapping.ofStrided .int wide).bind (·.eqStrided wide) = some false) ∧
    let uint32 : IntegerType := ⟨false, 32, by decide⟩
    let strided := StrideMapping.ofStrided uint32 (narrowProduct uint32 (by decide)).toStrided
    strided.isSome ∧ (strided.bind (SideMapping.ofStride .left uint32)).isNone := by
  have hnested : Nested [2 ^ 32, 2 ^ 32 + 1, 0] [1, 2 ^ 32, 2 ^ 32] := by
    refine ⟨[(0, 2 ^ 32), (2 ^ 32, 1), (2 ^ 32 + 1, 2 ^ 32)], ?_, by decide⟩
    exact List.isPerm_iff.mp rfl
  exact ⟨⟨⟨by decide, by decide, hnested⟩, by decide, by decide⟩, by decide, by decide, by decide,
    by decide⟩

end Libhipcxx.Mdspan
