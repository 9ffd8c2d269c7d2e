import Libhipcxx.Mdspan.Mapping

/-!
# submdspan

`submdspan` folds a list of slice specifiers over the dimensions of an
`mdspan`.  The fold grows arrays of offsets, extents and strides and runs an
analysis that decides whether the layout of the source is kept or the strides
have to be stored.
-/

namespace Libhipcxx.Mdspan

/-- An entry of a partially static array. -/
inductive Extent
  | static (value : ℕ)
  | dynamic (value : ℕ)
deriving DecidableEq

def Extent.value : Extent → ℕ
  | static value => value
  | dynamic value => value

inductive Layout
  | left
  | right
  | stride
deriving DecidableEq

/-- The mapping of each layout over its extents. -/
inductive Mapping (T : IntegerType)
  | left (extents : List Extent)
  | right (extents : List Extent)
  | stride (extents : List Extent) (strides : List ℤ)
      (length_eq : strides.length = extents.length) (strides_fit : ∀ s ∈ strides, T.Fits s)
deriving DecidableEq

namespace Mapping

variable {T : IntegerType}

def layout : Mapping T → Layout
  | left _ => .left
  | right _ => .right
  | stride _ _ _ _ => .stride

def extents : Mapping T → List Extent
  | left extents => extents
  | right extents => extents
  | stride extents _ _ _ => extents

def rank (mapping : Mapping T) : ℕ := mapping.extents.length

/-- `operator()`. -/
def offset (indices : List ℕ) : Mapping T → Option ℤ
  | left extents => LayoutLeft.computeOffset T (extents.map Extent.value) indices
  | right extents => LayoutRight.computeOffset T (extents.map Extent.value) indices
  | stride _ strides _ _ => LayoutStride.callOp T strides indices

/-- `stride`. -/
def strideAt (r : ℕ) : Mapping T → Option ℤ
  | left extents => LayoutLeft.stride T (extents.map Extent.value) r
  | right extents => LayoutRight.stride T (extents.map Extent.value) r
  | stride _ strides _ _ => strides[r]?

/-- The strides of all dimensions, as the fold reads them. -/
def strides (mapping : Mapping T) : Option (List ℤ) :=
  (List.range mapping.rank).mapM fun r => mapping.strideAt r

end Mapping

/-! ## The analysis of the layout -/

inductive Analysis
  | right (result onlyScalar : Bool)
  | left (result onlyAll : Bool)
  | ignore
deriving DecidableEq

namespace Analysis

def encounterPair : Analysis → Analysis
  | right result onlyScalar => right (result && onlyScalar) false
  | left result onlyAll => left (result && onlyAll) false
  | ignore => ignore

def encounterAll : Analysis → Analysis
  | right result _ => right result false
  | left result onlyAll => left (result && onlyAll) onlyAll
  | ignore => ignore

def encounterScalar : Analysis → Analysis
  | right result onlyScalar => right (result && onlyScalar) onlyScalar
  | left result _ => left result false
  | ignore => ignore

/-- `layout_type`: the layout of the source if it is kept. -/
def layoutType : Analysis → Layout
  | right result _ => if result then .right else .stride
  | left result _ => if result then .left else .stride
  | ignore => .stride

/-- `preserve_layout_analysis`. -/
def ofLayout : Layout → Analysis
  | .right => right true true
  | .left => left true true
  | .stride => ignore

end Analysis

/-! ## The fold over the slices -/

/-- Slice specifiers.  A scalar is a `size_t`; a pair has run-time bounds or
bounds known at compile time. -/
inductive Slice
  | scalar (i : ℕ)
  | pair (a b : ℕ)
  | staticPair (a b : ℕ)
  | full
deriving DecidableEq

/-- `__assign_op_slice_handler`. -/
structure Handler (T : IntegerType) where
  analysis : Analysis
  offsets : List Extent
  exts : List Extent
  strides : List ℤ
  length_eq : strides.length = exts.length
  strides_fit : ∀ s ∈ strides, T.Fits s

/-- A slice together with the extent and the stride of its dimension. -/
structure SliceWrap where
  slice : Slice
  oldExtent : Extent
  oldStride : ℤ

namespace Handler

variable {T : IntegerType}

def init (T : IntegerType) (layout : Layout) : Handler T where
  analysis := Analysis.ofLayout layout
  offsets := []
  exts := []
  strides := []
  length_eq := rfl
  strides_fit := List.forall_mem_nil _

/-- A dimension that is kept, from an offset and with a new extent. -/
def keep (h : Handler T) (analysis : Analysis) (offset ext : Extent) (stride : ℤ) :
    Handler T where
  analysis := analysis
  offsets := h.offsets ++ [offset]
  exts := h.exts ++ [ext]
  strides := h.strides ++ [T.convert stride]
  length_eq := by simp [h.length_eq]
  strides_fit := by
    intro s hs
    rcases List.mem_append.mp hs with hold | hnew
    · exact h.strides_fit s hold
    · rw [List.mem_singleton.mp hnew]
      exact T.fits_convert stride

/-- `operator=`. -/
def assign (h : Handler T) (w : SliceWrap) : Handler T :=
  match w.slice with
  | .scalar i =>
    { h with
      analysis := h.analysis.encounterScalar
      offsets := h.offsets ++ [.dynamic i] }
  | .full => h.keep h.analysis.encounterAll (.static 0) w.oldExtent w.oldStride
  | .pair a b =>
    h.keep h.analysis.encounterPair (.dynamic a) (.dynamic (b - a)) w.oldStride
  | .staticPair a b =>
    h.keep h.analysis.encounterPair (.static a) (.static (b - a)) w.oldStride

/-- `make_layout_mapping`. -/
def makeLayoutMapping (h : Handler T) : Mapping T :=
  match h.analysis.layoutType with
  | .left => .left h.exts
  | .right => .right h.exts
  | .stride => .stride h.exts h.strides h.length_eq h.strides_fit

end Handler

/-- A data handle, as the number of an element, and a mapping. -/
structure MdSpan (T : IntegerType) where
  dataHandle : ℤ
  mapping : Mapping T
deriving DecidableEq

/-- The stride of a dimension goes through a `size_t`. -/
def wrapSlices (slices : List Slice) (extents : List Extent) (strides : List ℤ) :
    List SliceWrap :=
  List.zipWith (fun slice old => ⟨slice, old.1, IntegerType.size.convert old.2⟩) slices
    (extents.zip strides)

/-- `_submdspan_impl`; none if a stride or the offset overflows in a signed
type.  The offset is added to the data handle as a `size_t`. -/
def submdspan {T : IntegerType} (src : MdSpan T) (slices : List Slice) : Option (MdSpan T) := do
  let strides ← src.mapping.strides
  let handled := (wrapSlices slices src.mapping.extents strides).foldl Handler.assign
    (Handler.init T src.mapping.layout)
  let offset ← src.mapping.offset (handled.offsets.map Extent.value)
  return {
    dataHandle := src.dataHandle + IntegerType.size.convert offset
    mapping := handled.makeLayoutMapping }

example : submdspan (T := .int) ⟨5, .right [.dynamic 2, .static 3, .dynamic 4]⟩
    [.scalar 1, .pair 1 3, .full] =
      some ⟨5 + 16, .right [.dynamic 2, .dynamic 4]⟩ := by decide

end Libhipcxx.Mdspan
