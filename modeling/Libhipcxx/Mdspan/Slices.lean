import Libhipcxx.Mdspan.Submdspan

/-!
# What the fold over the slices computes

The fold yields the extents, strides and start that the slices stand for.
When the analysis keeps a layout, the kept dimensions are the first ones of
`layout_left` or the last ones of `layout_right`, and all of their extents but
the outermost are those of the source.
-/

namespace Libhipcxx.Mdspan

/-! ## The meaning of a list of slices -/

/-- A slice specifier that fits an extent. -/
def Slice.Valid : Slice → ℕ → Prop
  | .scalar i, e => i < e
  | .pair a b, e => a ≤ b ∧ b ≤ e
  | .staticPair a b, e => a ≤ b ∧ b ≤ e
  | .full, _ => True

/-- The first index that a slice selects. -/
def Slice.start : Slice → ℕ
  | .scalar i => i
  | .pair a _ => a
  | .staticPair a _ => a
  | .full => 0

/-- The entries of the dimensions whose slice is not a scalar. -/
def kept {α : Type} : List Slice → List α → List α
  | .scalar _ :: ss, _ :: xs => kept ss xs
  | .pair _ _ :: ss, x :: xs => x :: kept ss xs
  | .staticPair _ _ :: ss, x :: xs => x :: kept ss xs
  | .full :: ss, x :: xs => x :: kept ss xs
  | _, _ => []

/-- The extent of a slice that is not a scalar. -/
def Slice.extent : Slice → Extent → Extent
  | .pair a b, _ => .dynamic (b - a)
  | .staticPair a b, _ => .static (b - a)
  | _, old => old

/-- One extent for each slice that is not a scalar. -/
def resultExtents (slices : List Slice) (extents : List Extent) : List Extent :=
  kept slices (List.zipWith Slice.extent slices extents)

/-- The index of the source that an index of the result stands for. -/
def compose : List Slice → List ℕ → List ℕ
  | .scalar i :: ss, js => i :: compose ss js
  | .pair a _ :: ss, j :: js => (a + j) :: compose ss js
  | .staticPair a _ :: ss, j :: js => (a + j) :: compose ss js
  | .full :: ss, j :: js => j :: compose ss js
  | _, _ => []

/-- The step of the analysis at a slice. -/
def Analysis.encounter (analysis : Analysis) : Slice → Analysis
  | .scalar _ => analysis.encounterScalar
  | .pair _ _ => analysis.encounterPair
  | .staticPair _ _ => analysis.encounterPair
  | .full => analysis.encounterAll

/-! ## Slices that keep their dimension -/

/-- A slice that is not a scalar. -/
def Slice.Keeps (s : Slice) : Prop := ∀ i, s ≠ .scalar i

theorem Slice.scalar_or_keeps (s : Slice) : (∃ i, s = .scalar i) ∨ s.Keeps := by
  cases s with
  | scalar i => exact Or.inl ⟨i, rfl⟩
  | pair a b => exact Or.inr nofun
  | staticPair a b => exact Or.inr nofun
  | full => exact Or.inr nofun

theorem kept_cons {α : Type} {s : Slice} (hs : s.Keeps) (ss : List Slice) (x : α)
    (xs : List α) : kept (s :: ss) (x :: xs) = x :: kept ss xs := by
  cases s with
  | scalar i => exact absurd rfl (hs i)
  | pair a b => rfl
  | staticPair a b => rfl
  | full => rfl

theorem resultExtents_cons {s : Slice} (hs : s.Keeps) (ss : List Slice) (e : Extent)
    (es : List Extent) :
    resultExtents (s :: ss) (e :: es) = s.extent e :: resultExtents ss es :=
  kept_cons hs _ _ _

theorem compose_cons {s : Slice} (hs : s.Keeps) (ss : List Slice) (j : ℕ)
    (js : List ℕ) :
    compose (s :: ss) (j :: js) = (s.start + j) :: compose ss js := by
  cases s with
  | scalar i => exact absurd rfl (hs i)
  | pair a b => rfl
  | staticPair a b => rfl
  | full => rw [Slice.start, Nat.zero_add, compose]

/-- An index of the slice is an index of the dimension. -/
theorem Slice.start_add_lt {s : Slice} {e : Extent} {j : ℕ}
    (hvalid : s.Valid e.value) (hj : j < (s.extent e).value) (hs : s.Keeps) :
    s.start + j < e.value := by
  cases s with
  | scalar i => exact absurd rfl (hs i)
  | pair a b =>
    obtain ⟨hab, hb⟩ := hvalid
    simp only [Slice.extent, Slice.start, Extent.value] at hj hb ⊢
    omega
  | staticPair a b =>
    obtain ⟨hab, hb⟩ := hvalid
    simp only [Slice.extent, Slice.start, Extent.value] at hj hb ⊢
    omega
  | full => rwa [Slice.start, Nat.zero_add]

theorem length_kept {α β : Type} {slices : List Slice} {xs : List α} {ys : List β}
    (hxs : slices.length = xs.length) (hys : slices.length = ys.length) :
    (kept slices xs).length = (kept slices ys).length := by
  induction slices generalizing xs ys with
  | nil => rfl
  | cons s ss ih =>
    obtain ⟨x, xs, rfl⟩ := List.exists_cons_of_length_eq_add_one hxs.symm
    obtain ⟨y, ys, rfl⟩ := List.exists_cons_of_length_eq_add_one hys.symm
    have h := @ih xs ys (by simpa using hxs) (by simpa using hys)
    rcases s.scalar_or_keeps with ⟨i, rfl⟩ | hs
    · exact h
    · rw [kept_cons hs, kept_cons hs, List.length_cons, List.length_cons, h]

/-! ## The fold -/

/-- The fold runs the analysis and appends to each array what the slices
stand for. -/
theorem foldl_assign {T : IntegerType} (hT : T.width ≤ 64) {slices : List Slice}
    {extents : List Extent} {strides : List ℤ} (hfit : ∀ s ∈ strides, T.Fits s)
    (hextents : slices.length = extents.length) (hstrides : slices.length = strides.length)
    (h : Handler T) :
    let handled := (wrapSlices slices extents strides).foldl Handler.assign h
    handled.analysis = slices.foldl Analysis.encounter h.analysis ∧
      handled.offsets.map Extent.value =
        h.offsets.map Extent.value ++ slices.map Slice.start ∧
      handled.exts = h.exts ++ resultExtents slices extents ∧
      handled.strides = h.strides ++ kept slices strides := by
  induction slices generalizing extents strides h with
  | nil => simp [wrapSlices, resultExtents, kept]
  | cons s ss ih =>
    obtain ⟨e, es, rfl⟩ := List.exists_cons_of_length_eq_add_one hextents.symm
    obtain ⟨w, ws, rfl⟩ := List.exists_cons_of_length_eq_add_one hstrides.symm
    obtain ⟨hw, hws⟩ := List.forall_mem_cons.mp hfit
    have hstride : T.convert (IntegerType.size.convert w) = w := by
      rw [IntegerType.convert_convert hT, IntegerType.convert_of_fits hw]
    have hrest := @ih es ws hws (by simpa using hextents) (by simpa using hstrides)
      (h.assign ⟨s, e, IntegerType.size.convert w⟩)
    obtain ⟨hanalysis, hoffsets, hexts, hstrides'⟩ := hrest
    refine ⟨hanalysis.trans ?_, hoffsets.trans ?_, hexts.trans ?_,
      hstrides'.trans ?_⟩
    · cases s <;> rfl
    · cases s <;> simp [Handler.assign, Handler.keep, Slice.start, Extent.value]
    · cases s <;> simp [Handler.assign, Handler.keep, resultExtents, Slice.extent, kept]
    · cases s <;> simp [Handler.assign, Handler.keep, kept, hstride]

/-! ## The analysis -/

theorem layoutType_ignore (slices : List Slice) :
    (slices.foldl Analysis.encounter .ignore).layoutType = .stride := by
  induction slices with
  | nil => rfl
  | cons s ss ih => cases s <;> exact ih

theorem layoutType_right_lost (slices : List Slice) (onlyScalar : Bool) :
    (slices.foldl Analysis.encounter (.right false onlyScalar)).layoutType =
      .stride := by
  induction slices generalizing onlyScalar with
  | nil => rfl
  | cons s ss ih => cases s <;> exact ih _

theorem layoutType_left_lost (slices : List Slice) (onlyAll : Bool) :
    (slices.foldl Analysis.encounter (.left false onlyAll)).layoutType =
      .stride := by
  induction slices generalizing onlyAll with
  | nil => rfl
  | cons s ss ih => cases s <;> exact ih _

theorem layoutType_right (slices : List Slice) (result onlyScalar : Bool) :
    (slices.foldl Analysis.encounter (.right result onlyScalar)).layoutType =
        .right ∨
      (slices.foldl Analysis.encounter (.right result onlyScalar)).layoutType =
        .stride := by
  induction slices generalizing result onlyScalar with
  | nil => cases result <;> simp [Analysis.layoutType]
  | cons s ss ih => cases s <;> exact ih _ _

theorem layoutType_left (slices : List Slice) (result onlyAll : Bool) :
    (slices.foldl Analysis.encounter (.left result onlyAll)).layoutType = .left ∨
      (slices.foldl Analysis.encounter (.left result onlyAll)).layoutType =
        .stride := by
  induction slices generalizing result onlyAll with
  | nil => cases result <;> simp [Analysis.layoutType]
  | cons s ss ih => cases s <;> exact ih _ _

/-- After a dimension is kept, `layout_right` is kept only by full extents. -/
theorem all_full_of_right {slices : List Slice}
    (h : (slices.foldl Analysis.encounter (.right true false)).layoutType = .right) :
    ∀ s ∈ slices, s = .full := by
  induction slices with
  | nil => simp
  | cons s ss ih =>
    have hlost := layoutType_right_lost ss false
    cases s with
    | full => exact List.forall_mem_cons.mpr ⟨rfl, ih h⟩
    | scalar i => exact Layout.noConfusion (hlost.symm.trans h)
    | pair a b => exact Layout.noConfusion (hlost.symm.trans h)
    | staticPair a b => exact Layout.noConfusion (hlost.symm.trans h)

/-- After a scalar or a pair, `layout_left` is kept only by scalars. -/
theorem all_scalar_of_left {slices : List Slice}
    (h : (slices.foldl Analysis.encounter (.left true false)).layoutType = .left) :
    ∀ s ∈ slices, ∃ i, s = .scalar i := by
  induction slices with
  | nil => simp
  | cons s ss ih =>
    have hlost := layoutType_left_lost ss false
    cases s with
    | scalar i => exact List.forall_mem_cons.mpr ⟨⟨i, rfl⟩, ih h⟩
    | full => exact Layout.noConfusion (hlost.symm.trans h)
    | pair a b => exact Layout.noConfusion (hlost.symm.trans h)
    | staticPair a b => exact Layout.noConfusion (hlost.symm.trans h)

theorem kept_of_all_full {α : Type} {slices : List Slice} {xs : List α}
    (hfull : ∀ s ∈ slices, s = .full) (hlength : slices.length = xs.length) :
    kept slices xs = xs := by
  induction slices generalizing xs with
  | nil => exact (List.length_eq_zero_iff.mp hlength.symm).symm
  | cons s ss ih =>
    obtain ⟨x, xs, rfl⟩ := List.exists_cons_of_length_eq_add_one hlength.symm
    obtain ⟨rfl, hfull'⟩ := List.forall_mem_cons.mp hfull
    rw [kept, ih hfull' (by simpa using hlength)]

theorem resultExtents_of_all_full {slices : List Slice} {extents : List Extent}
    (hfull : ∀ s ∈ slices, s = .full) (hlength : slices.length = extents.length) :
    resultExtents slices extents = extents := by
  induction slices generalizing extents with
  | nil => exact (List.length_eq_zero_iff.mp hlength.symm).symm
  | cons s ss ih =>
    obtain ⟨e, es, rfl⟩ := List.exists_cons_of_length_eq_add_one hlength.symm
    obtain ⟨rfl, hfull'⟩ := List.forall_mem_cons.mp hfull
    have hkeeps : Slice.full.Keeps := nofun
    rw [resultExtents_cons hkeeps, ih hfull' (by simpa using hlength)]
    rfl

theorem kept_of_all_scalar {α : Type} {slices : List Slice} (xs : List α)
    (hscalar : ∀ s ∈ slices, ∃ i, s = .scalar i) : kept slices xs = [] := by
  induction slices generalizing xs with
  | nil => rfl
  | cons s ss ih =>
    obtain ⟨⟨i, rfl⟩, hscalar'⟩ := List.forall_mem_cons.mp hscalar
    cases xs with
    | nil => rfl
    | cons x xs => exact ih xs hscalar'

/-! ## Kept layouts -/

/-- A list of slices keeps the last dimensions: the entries after the first
`n`, and the extents behind each kept dimension are those of the source. -/
def KeepsLast (slices : List Slice) (n : ℕ) : Prop :=
  (∀ {α : Type} (xs : List α), slices.length = xs.length → kept slices xs = xs.drop n) ∧
    ∀ extents : List Extent, slices.length = extents.length → ∀ r,
      (resultExtents slices extents).drop (r + 1) = extents.drop (n + r + 1)

/-- A list of slices keeps the first `n` dimensions, and the extents before
each kept dimension are those of the source. -/
def KeepsFirst (slices : List Slice) (n : ℕ) : Prop :=
  (∀ {α : Type} (xs : List α), slices.length = xs.length → kept slices xs = xs.take n) ∧
    ∀ extents : List Extent, slices.length = extents.length → ∀ r < n,
      (resultExtents slices extents).take r = extents.take r

theorem keepsLast_scalar {slices : List Slice} {n : ℕ} (h : KeepsLast slices n)
    (i : ℕ) : KeepsLast (.scalar i :: slices) (n + 1) := by
  constructor
  · intro α xs hxs
    obtain ⟨x, xs, rfl⟩ := List.exists_cons_of_length_eq_add_one hxs.symm
    exact h.1 xs (by simpa using hxs)
  · intro extents hextents r
    obtain ⟨e, es, rfl⟩ := List.exists_cons_of_length_eq_add_one hextents.symm
    have hrest := h.2 es (by simpa using hextents) r
    rw [Nat.add_right_comm n 1 r]
    exact hrest

/-- A first dimension that is kept before full extents only. -/
theorem keepsLast_of_all_full {s : Slice} {slices : List Slice}
    (hs : s.Keeps) (hfull : ∀ s ∈ slices, s = .full) :
    KeepsLast (s :: slices) 0 := by
  constructor
  · intro α xs hxs
    obtain ⟨x, xs, rfl⟩ := List.exists_cons_of_length_eq_add_one hxs.symm
    rw [kept_cons hs, kept_of_all_full hfull (by simpa using hxs), List.drop_zero]
  · intro extents hextents r
    obtain ⟨e, es, rfl⟩ := List.exists_cons_of_length_eq_add_one hextents.symm
    rw [resultExtents_cons hs,
      resultExtents_of_all_full hfull (by simpa using hextents), List.drop_succ_cons,
      Nat.zero_add, List.drop_succ_cons]

/-- When the analysis keeps `layout_right`, the last dimensions are kept. -/
theorem exists_keepsLast {slices : List Slice}
    (h : (slices.foldl Analysis.encounter (.right true true)).layoutType = .right) :
    ∃ n, KeepsLast slices n := by
  induction slices with
  | nil =>
    refine ⟨0, fun {α} xs hxs => ?_, fun extents hextents r => ?_⟩
    · exact (kept_of_all_full (by simp) hxs)
    · rw [resultExtents_of_all_full (by simp) hextents, Nat.zero_add]
  | cons s ss ih =>
    cases s with
    | scalar i =>
      obtain ⟨n, hn⟩ := ih h
      exact ⟨n + 1, keepsLast_scalar hn i⟩
    | pair a b => exact ⟨0, keepsLast_of_all_full nofun (all_full_of_right h)⟩
    | staticPair a b => exact ⟨0, keepsLast_of_all_full nofun (all_full_of_right h)⟩
    | full => exact ⟨0, keepsLast_of_all_full nofun (all_full_of_right h)⟩

theorem keepsFirst_full {slices : List Slice} {n : ℕ} (h : KeepsFirst slices n) :
    KeepsFirst (.full :: slices) (n + 1) := by
  constructor
  · intro α xs hxs
    obtain ⟨x, xs, rfl⟩ := List.exists_cons_of_length_eq_add_one hxs.symm
    rw [kept, h.1 xs (by simpa using hxs), List.take_succ_cons]
  · intro extents hextents r hr
    obtain ⟨e, es, rfl⟩ := List.exists_cons_of_length_eq_add_one hextents.symm
    cases r with
    | zero => rfl
    | succ r =>
      have hrest := h.2 es (by simpa using hextents) r (Nat.lt_of_succ_lt_succ hr)
      rw [List.take_succ_cons, ← hrest]
      rfl

theorem keepsFirst_scalar {slices : List Slice}
    (hscalar : ∀ s ∈ slices, ∃ i, s = .scalar i) : KeepsFirst slices 0 := by
  constructor
  · intro α xs _
    rw [kept_of_all_scalar xs hscalar, List.take_zero]
  · intro extents _ r hr
    exact absurd hr (Nat.not_lt_zero r)

/-- A dimension that is kept before scalars only. -/
theorem keepsFirst_of_all_scalar {s : Slice} {slices : List Slice}
    (hs : s.Keeps) (hscalar : ∀ s ∈ slices, ∃ i, s = .scalar i) :
    KeepsFirst (s :: slices) 1 := by
  constructor
  · intro α xs hxs
    obtain ⟨x, xs, rfl⟩ := List.exists_cons_of_length_eq_add_one hxs.symm
    rw [kept_cons hs, kept_of_all_scalar xs hscalar, List.take_succ_cons,
      List.take_zero]
  · intro extents _ r hr
    rw [Nat.lt_one_iff.mp hr, List.take_zero, List.take_zero]

/-- When the analysis keeps `layout_left`, the first dimensions are kept. -/
theorem exists_keepsFirst {slices : List Slice}
    (h : (slices.foldl Analysis.encounter (.left true true)).layoutType = .left) :
    ∃ n, KeepsFirst slices n := by
  induction slices with
  | nil => exact ⟨0, keepsFirst_scalar (by simp)⟩
  | cons s ss ih =>
    cases s with
    | full =>
      obtain ⟨n, hn⟩ := ih h
      exact ⟨n + 1, keepsFirst_full hn⟩
    | scalar i =>
      exact ⟨0, keepsFirst_scalar
        (List.forall_mem_cons.mpr ⟨⟨i, rfl⟩, all_scalar_of_left h⟩)⟩
    | pair a b => exact ⟨1, keepsFirst_of_all_scalar nofun (all_scalar_of_left h)⟩
    | staticPair a b =>
      exact ⟨1, keepsFirst_of_all_scalar nofun (all_scalar_of_left h)⟩

end Libhipcxx.Mdspan
