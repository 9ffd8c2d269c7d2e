import Libhipcxx.Mdspan.SliceSpan

/-!
# Slices of slices

`submdspan` of a result of `submdspan` is a slice of the source: the slices
compose, dimension by dimension.  The layouts of the two ways may differ, since
the analysis sees less of the slices that are taken in turn; the elements, the
extents and the strides do not.
-/

namespace Libhipcxx.Mdspan

open MixedRadix

/-- The same indices, counted from an earlier one. -/
def Slice.shift (k : ℕ) : Slice → Slice
  | .scalar i => .scalar (k + i)
  | .pair a b => .pair (k + a) (k + b)
  | .staticPair a b => .staticPair (k + a) (k + b)
  | .full => .full

/-- A slice of what a slice selects. -/
def Slice.then (s : Slice) : Slice → Slice
  | .full => s
  | t => t.shift s.start

/-- Slices of the dimensions that slices keep. -/
def composeSlices : List Slice → List Slice → List Slice
  | .scalar i :: ss, ts => .scalar i :: composeSlices ss ts
  | s :: ss, t :: ts => s.then t :: composeSlices ss ts
  | _, _ => []

/-- Slices that are taken one after the other. -/
def composeAll : List Slice → List (List Slice) → List Slice
  | ss, [] => ss
  | ss, ts :: rest => composeSlices ss (composeAll ts rest)

/-- `submdspan` of `submdspan`, and so on. -/
def submdspans {T : IntegerType} (src : MdSpan T) (chain : List (List Slice)) :
    Option (MdSpan T) :=
  chain.foldlM submdspan src

/-- The slices fit the extents that they are taken of. -/
def ValidChain : List Extent → List (List Slice) → Prop
  | _, [] => True
  | es, ss :: rest =>
      List.Forall₂ Slice.Valid ss (es.map Extent.value) ∧ ValidChain (resultExtents ss es) rest

/-- The extents after all slices. -/
def chainExtents (es : List Extent) (chain : List (List Slice)) : List Extent :=
  chain.foldl (fun es ss => resultExtents ss es) es

/-! ## One dimension -/

namespace Slice

variable {s t : Slice} {e : Extent}

theorem start_then (s t : Slice) : (s.then t).start = s.start + t.start := by
  cases t <;> rfl

theorem keeps_then (hs : s.Keeps) (ht : t.Keeps) : (s.then t).Keeps := by
  cases t with
  | scalar j => exact absurd rfl (ht j)
  | full => exact hs
  | pair c d => exact nofun
  | staticPair c d => exact nofun

theorem extent_then (ht : t.Keeps) (e : Extent) :
    (s.then t).extent e = t.extent (s.extent e) := by
  cases t with
  | scalar j => exact absurd rfl (ht j)
  | full => rfl
  | pair c d => exact congrArg Extent.dynamic (Nat.add_sub_add_left _ _ _)
  | staticPair c d => exact congrArg Extent.static (Nat.add_sub_add_left _ _ _)

/-- What a slice selects ends inside the dimension. -/
theorem start_add_extent_le (hs : s.Keeps) (hvalid : s.Valid e.value) :
    s.start + (s.extent e).value ≤ e.value := by
  cases s with
  | scalar i => exact absurd rfl (hs i)
  | full => exact (Nat.zero_add _).le
  | pair a b => exact (Nat.add_sub_of_le hvalid.1).le.trans hvalid.2
  | staticPair a b => exact (Nat.add_sub_of_le hvalid.1).le.trans hvalid.2

theorem valid_then (hs : s.Keeps) (hvalid : s.Valid e.value) (ht : t.Valid (s.extent e).value) :
    (s.then t).Valid e.value := by
  have hle := start_add_extent_le hs hvalid
  cases t with
  | full => exact hvalid
  | scalar j => exact (Nat.add_lt_add_left ht _).trans_le hle
  | pair c d => exact ⟨Nat.add_le_add_left ht.1 _, (Nat.add_le_add_left ht.2 _).trans hle⟩
  | staticPair c d => exact ⟨Nat.add_le_add_left ht.1 _, (Nat.add_le_add_left ht.2 _).trans hle⟩

end Slice

/-! ## All dimensions -/

variable {ss ts : List Slice} {es : List Extent}

theorem composeSlices_cons {s : Slice} (hs : s.Keeps) (ss ts : List Slice) (t : Slice) :
    composeSlices (s :: ss) (t :: ts) = s.then t :: composeSlices ss ts := by
  cases s with
  | scalar i => exact absurd rfl (hs i)
  | pair a b => rfl
  | staticPair a b => rfl
  | full => rfl

/-- The slices fit what they are taken of, dimension by dimension. -/
theorem valid_composeSlices (hss : List.Forall₂ Slice.Valid ss (es.map Extent.value))
    (hts : List.Forall₂ Slice.Valid ts ((resultExtents ss es).map Extent.value)) :
    List.Forall₂ Slice.Valid (composeSlices ss ts) (es.map Extent.value) := by
  induction ss generalizing es ts with
  | nil =>
    rw [List.forall₂_nil_left_iff.mp hss]
    exact List.Forall₂.nil
  | cons s ss ih =>
    obtain ⟨size, sizes, hs, hrest, hsizes⟩ := List.forall₂_cons_left_iff.mp hss
    obtain ⟨e, es, rfl, rfl, rfl⟩ := List.map_eq_cons_iff.mp hsizes
    rcases s.scalar_or_keeps with ⟨i, rfl⟩ | hkeeps
    · exact List.Forall₂.cons hs (ih hrest hts)
    · rw [resultExtents_cons hkeeps, List.map_cons] at hts
      obtain ⟨t, ts, ht, htail, rfl⟩ := List.forall₂_cons_right_iff.mp hts
      rw [composeSlices_cons hkeeps]
      exact List.Forall₂.cons (Slice.valid_then hkeeps hs ht) (ih hrest htail)

/-- What is kept of what is kept. -/
theorem kept_composeSlices {α : Type} {xs : List α} (hss : ss.length = xs.length)
    (hts : ts.length = (kept ss xs).length) :
    kept (composeSlices ss ts) xs = kept ts (kept ss xs) := by
  induction ss generalizing xs ts with
  | nil =>
    rw [List.length_eq_zero_iff.mp hss.symm] at hts ⊢
    rw [List.length_eq_zero_iff.mp hts]
    rfl
  | cons s ss ih =>
    obtain ⟨x, xs, rfl⟩ := List.exists_cons_of_length_eq_add_one hss.symm
    have hss' : ss.length = xs.length := by simpa using hss
    rcases s.scalar_or_keeps with ⟨i, rfl⟩ | hs
    · exact ih hss' hts
    · rw [kept_cons hs] at hts ⊢
      obtain ⟨t, ts, rfl⟩ := List.exists_cons_of_length_eq_add_one hts
      have htail := ih hss' (by simpa using hts)
      rw [composeSlices_cons hs]
      rcases t.scalar_or_keeps with ⟨j, rfl⟩ | ht
      · exact htail
      · rw [kept_cons (Slice.keeps_then hs ht), kept_cons ht, htail]

theorem resultExtents_composeSlices (hss : ss.length = es.length)
    (hts : ts.length = (resultExtents ss es).length) :
    resultExtents (composeSlices ss ts) es = resultExtents ts (resultExtents ss es) := by
  induction ss generalizing es ts with
  | nil =>
    rw [List.length_eq_zero_iff.mp hss.symm] at hts ⊢
    rw [List.length_eq_zero_iff.mp hts]
    rfl
  | cons s ss ih =>
    obtain ⟨e, es, rfl⟩ := List.exists_cons_of_length_eq_add_one hss.symm
    have hss' : ss.length = es.length := by simpa using hss
    rcases s.scalar_or_keeps with ⟨i, rfl⟩ | hs
    · exact ih hss' hts
    · rw [resultExtents_cons hs] at hts ⊢
      obtain ⟨t, ts, rfl⟩ := List.exists_cons_of_length_eq_add_one hts
      have htail := ih hss' (by simpa using hts)
      rw [composeSlices_cons hs]
      rcases t.scalar_or_keeps with ⟨j, rfl⟩ | ht
      · exact htail
      · rw [resultExtents_cons (Slice.keeps_then hs ht), resultExtents_cons ht, htail,
          Slice.extent_then ht]

/-- The composed slices start where the later ones do. -/
theorem starts_composeSlices (hts : ts.length = (kept ss ss).length) :
    (composeSlices ss ts).map Slice.start = compose ss (ts.map Slice.start) := by
  induction ss generalizing ts with
  | nil => rfl
  | cons s ss ih =>
    rcases s.scalar_or_keeps with ⟨i, rfl⟩ | hs
    · rw [composeSlices, compose, List.map_cons, ih hts]
      rfl
    · rw [kept_cons hs] at hts
      obtain ⟨t, ts, rfl⟩ := List.exists_cons_of_length_eq_add_one hts
      rw [composeSlices_cons hs, List.map_cons, List.map_cons, compose_cons hs,
        ih (by simpa using hts), Slice.start_then]

/-! ## Two slices -/

variable {T : IntegerType}

/-- The same elements, extents and strides. -/
structure Agrees (a b : MdSpan T) : Prop where
  dataHandle : a.dataHandle = b.dataHandle
  extents : a.mapping.extents = b.mapping.extents
  weights : a.mapping.weights = b.mapping.weights

theorem Agrees.trans {a b c : MdSpan T} (hab : Agrees a b) (hbc : Agrees b c) : Agrees a c :=
  ⟨hab.dataHandle.trans hbc.dataHandle, hab.extents.trans hbc.extents,
    hab.weights.trans hbc.weights⟩

theorem Agrees.sizes_eq {a b : MdSpan T} (h : Agrees a b) : a.mapping.sizes = b.mapping.sizes := by
  rw [Mapping.sizes, Mapping.sizes, h.extents]

theorem Agrees.span_eq {a b : MdSpan T} (h : Agrees a b) : a.mapping.span = b.mapping.span := by
  rw [Mapping.span, Mapping.span, h.sizes_eq, h.weights]

variable {src sub sub' direct : MdSpan T} {ws ws' ws'' : List ℤ} {start start' start'' : ℕ}

theorem agrees_of_isSlice (hT : T.width ≤ 64) (hexact : src.mapping.ExactStrides)
    (hss : List.Forall₂ Slice.Valid ss src.mapping.sizes)
    (hts : List.Forall₂ Slice.Valid ts sub.mapping.sizes)
    (hsub : IsSlice src sub ss ws (dot (ss.map Slice.start) src.mapping.weights : ℕ))
    (hsub' : IsSlice sub sub' ts ws' (dot (ts.map Slice.start) sub.mapping.weights : ℕ))
    (hdirect : IsSlice src direct (composeSlices ss ts) ws''
      (dot ((composeSlices ss ts).map Slice.start) src.mapping.weights : ℕ)) :
    Agrees sub' direct := by
  have hlength : ss.length = src.mapping.extents.length := length_of_valid hss
  have hweights : ss.length = src.mapping.weights.length :=
    hlength.trans src.mapping.length_weights.symm
  have hsubExact := hsub.exactStrides hexact
  have hkept : ts.length = (kept ss src.mapping.weights).length := by
    rw [← hsub.keptWeights hexact, Mapping.length_weights, length_of_valid hts]
  have hresult : ts.length = (resultExtents ss src.mapping.extents).length := by
    rw [hkept, length_kept_resultExtents hlength hweights]
  constructor
  · have hself : ts.length = (kept ss ss).length := hkept.trans (length_kept hweights rfl)
    have hsum : dot ((composeSlices ss ts).map Slice.start) src.mapping.weights =
        dot (ss.map Slice.start) src.mapping.weights +
          dot (ts.map Slice.start) sub.mapping.weights := by
      rw [starts_composeSlices hself, dot_compose hweights (by rw [List.length_map, hkept]),
        hsub.keptWeights hexact]
    rw [hsub'.dataHandle_eq hT hsubExact.nonneg, hsub.dataHandle_eq hT hexact.nonneg,
      hdirect.dataHandle_eq hT hexact.nonneg, hsum, Nat.cast_add, Int.add_assoc]
  · rw [hsub'.extents, hsub.extents, hdirect.extents,
      resultExtents_composeSlices hlength hresult]
  · rw [hsub'.keptWeights hsubExact, hsub.keptWeights hexact, hdirect.keptWeights hexact,
      kept_composeSlices hweights hkept]

/-! ## Chains -/

variable {rest : List (List Slice)}

theorem length_of_forall₂ (h : List.Forall₂ Slice.Valid ss (es.map Extent.value)) :
    ss.length = es.length := by
  rw [h.length_eq, List.length_map]

/-- The composed slices fit the source, and keep what the chain keeps. -/
theorem composeAll_spec (h : ValidChain es (ss :: rest)) :
    List.Forall₂ Slice.Valid (composeAll ss rest) (es.map Extent.value) ∧
      resultExtents (composeAll ss rest) es = chainExtents es (ss :: rest) := by
  induction rest generalizing es ss with
  | nil => exact ⟨h.1, rfl⟩
  | cons ts rest ih =>
    obtain ⟨hss, hrest⟩ := h
    obtain ⟨hvalid, hextents⟩ := ih hrest
    refine ⟨valid_composeSlices hss hvalid, ?_⟩
    rw [composeAll, resultExtents_composeSlices (length_of_forall₂ hss) (length_of_forall₂ hvalid),
      hextents]
    rfl

/-- Slices that leave elements start at one. -/
theorem inRange_starts_chain (h : ValidChain es (ss :: rest))
    (hpos : 0 ∉ (chainExtents es (ss :: rest)).map Extent.value) :
    InRange ((composeAll ss rest).map Slice.start) (es.map Extent.value) := by
  obtain ⟨hvalid, hextents⟩ := composeAll_spec h
  rw [← hextents] at hpos
  exact inRange_starts hvalid (Mapping.pos_of_not_mem hpos)

theorem exists_chain (hT : T.width ≤ 64) (hvalid : ValidChain src.mapping.extents (ss :: rest))
    (hnonneg : src.mapping.NonnegStrides) (hspan : T.Fits src.mapping.span)
    (hpos : 0 ∉ (chainExtents src.mapping.extents (ss :: rest)).map Extent.value) :
    src.mapping.ExactStrides ∧ ∃ sub direct, submdspans src (ss :: rest) = some sub ∧
      submdspan src (composeAll ss rest) = some direct ∧
      IsSlice src direct (composeAll ss rest) (src.mapping.weights.map Nat.cast)
        (dot ((composeAll ss rest).map Slice.start) src.mapping.weights : ℕ) ∧
      Agrees sub direct ∧ sub.mapping.ExactStrides := by
  obtain ⟨hexact, direct, hdirect, hslice⟩ :=
    exists_isSlice_of_pos hT (composeAll_spec hvalid).1 hnonneg hspan
      (inRange_starts_chain hvalid hpos)
  refine ⟨hexact, ?_⟩
  induction rest generalizing src ss direct with
  | nil =>
    refine ⟨direct, direct, ?_, hdirect, hslice, ⟨rfl, rfl, rfl⟩, hslice.exactStrides hexact⟩
    rw [submdspans, List.foldlM_cons]
    exact Option.bind_eq_some_iff.mpr ⟨direct, hdirect, rfl⟩
  | cons ts rest ih =>
    obtain ⟨hss, hrest⟩ := hvalid
    -- the first result has elements, since the last one has
    have hlater := inRange_starts_chain hrest hpos
    have hfirst : 0 ∉ (resultExtents ss src.mapping.extents).map Extent.value :=
      fun hzero => not_inRange_of_zero hzero hlater
    obtain ⟨-, sub, hsub, hsubSlice⟩ := exists_isSlice_of_pos hT hss hnonneg hspan
      (inRange_starts hss (Mapping.pos_of_not_mem hfirst))
    have hsubExact := hsubSlice.exactStrides hexact
    have hsubSpan := span_fits_of_isSlice hss hexact hsubSlice hspan
    rw [← hsubSlice.extents] at hrest hlater
    have hlast : 0 ∉ (chainExtents sub.mapping.extents (ts :: rest)).map Extent.value := by
      rw [hsubSlice.extents]
      exact hpos
    obtain ⟨-, direct', hdirect', hslice'⟩ :=
      exists_isSlice_of_pos hT (composeAll_spec hrest).1 hsubExact.nonneg hsubSpan hlater
    obtain ⟨last, _, hlastEq, hdirectEq, -, hagrees, hlastExact⟩ :=
      ih hrest hsubExact.nonneg hsubSpan hlast hsubExact direct' hdirect' hslice'
    obtain rfl := Option.some.inj (hdirect'.symm.trans hdirectEq)
    refine ⟨last, direct, ?_, hdirect, hslice, hagrees.trans ?_, hlastExact⟩
    · rw [submdspans, List.foldlM_cons]
      exact Option.bind_eq_some_iff.mpr ⟨sub, hsub, hlastEq⟩
    · exact agrees_of_isSlice hT hexact hss (composeAll_spec hrest).1 hsubSlice hslice' hslice

/-- Different indices have different composed indices. -/
theorem compose_injective {is js : List ℕ} (his : is.length = (kept ss ss).length)
    (hjs : js.length = (kept ss ss).length) (h : compose ss is = compose ss js) : is = js := by
  induction ss generalizing is js with
  | nil => rw [List.length_eq_zero_iff.mp his, List.length_eq_zero_iff.mp hjs]
  | cons s ss ih =>
    rcases s.scalar_or_keeps with ⟨i, rfl⟩ | hs
    · exact ih his hjs (List.cons.inj h).2
    · rw [kept_cons hs] at his hjs
      obtain ⟨i, is, rfl⟩ := List.exists_cons_of_length_eq_add_one his
      obtain ⟨j, js, rfl⟩ := List.exists_cons_of_length_eq_add_one hjs
      rw [compose_cons hs, compose_cons hs] at h
      obtain ⟨hhead, htail⟩ := List.cons.inj h
      rw [Nat.add_left_cancel hhead, ih (by simpa using his) (by simpa using hjs) htail]

/-- Different indices have different offsets. -/
def MdSpan.Unique (a : MdSpan T) : Prop :=
  ∀ is js o, InRange is a.mapping.sizes → InRange js a.mapping.sizes →
    a.mapping.offset is = some o → a.mapping.offset js = some o → is = js

/-- A chain of slices that leaves elements is one slice of the source: it has the
same extents and elements, stays in the span of the source, addresses the
elements of the composed indices, and does not address an element twice if the
source does not. -/
theorem submdspan_chain (hT : T.width ≤ 64) (src : MdSpan T) (ss : List Slice)
    (rest : List (List Slice)) (hvalid : ValidChain src.mapping.extents (ss :: rest))
    (hnonneg : src.mapping.NonnegStrides) (hspan : T.Fits src.mapping.span)
    (hpos : 0 ∉ (chainExtents src.mapping.extents (ss :: rest)).map Extent.value) :
    ∃ sub direct, submdspans src (ss :: rest) = some sub ∧
      submdspan src (composeAll ss rest) = some direct ∧
      sub.mapping.extents = chainExtents src.mapping.extents (ss :: rest) ∧
      direct.mapping.extents = sub.mapping.extents ∧
      sub.dataHandle + sub.mapping.span ≤ src.dataHandle + src.mapping.span ∧
      (∀ js, InRange js sub.mapping.sizes → ∃ offset target,
        sub.mapping.offset js = some offset ∧
        direct.mapping.offset js = some offset ∧
        src.mapping.offset (compose (composeAll ss rest) js) = some target ∧
        sub.dataHandle + offset = src.dataHandle + target ∧
        direct.dataHandle + offset = src.dataHandle + target) ∧
      (src.Unique → sub.Unique) := by
  obtain ⟨hexact, sub, direct, hsub, hdirect, hslice, hagrees, hsubExact⟩ :=
    exists_chain hT hvalid hnonneg hspan hpos
  obtain ⟨hcomposed, hresult⟩ := composeAll_spec hvalid
  have hdirectExact := hslice.exactStrides hexact
  have hdirectSpan := span_fits_of_isSlice hcomposed hexact hslice hspan
  have helements : 0 ∉ direct.mapping.sizes := by rwa [hslice.sizes_eq, hresult]
  have hhandle := hslice.dataHandle_eq hT hnonneg
  -- an index, its offset and the offset of the composed index
  have haddress (js : List ℕ) (hjs : InRange js sub.mapping.sizes) :
      sub.mapping.offset js = some ((dot js sub.mapping.weights : ℕ) : ℤ) ∧
        direct.mapping.offset js = some ((dot js sub.mapping.weights : ℕ) : ℤ) ∧
        InRange (compose (composeAll ss rest) js) src.mapping.sizes ∧
        src.mapping.offset (compose (composeAll ss rest) js) =
          some ((dot ((composeAll ss rest).map Slice.start) src.mapping.weights +
            dot js sub.mapping.weights : ℕ) : ℤ) := by
    have hjs' : InRange js direct.mapping.sizes := by rwa [← hagrees.sizes_eq]
    obtain ⟨hin, htarget⟩ := hslice.dot_compose_eq hexact hcomposed hjs'
    have hsubOffset := offset_of_span hT hsubExact.nonneg (hagrees.span_eq ▸ hdirectSpan) hjs
    have hdirectOffset := offset_of_span hT hdirectExact.nonneg hdirectSpan hjs'
    have hsrcOffset := offset_of_span hT hnonneg hspan hin
    rw [htarget] at hsrcOffset
    rw [← hagrees.weights] at hdirectOffset hsrcOffset
    exact ⟨hsubOffset, hdirectOffset, hin, hsrcOffset⟩
  refine ⟨sub, direct, hsub, hdirect, ?_, hagrees.extents.symm, ?_, ?_, ?_⟩
  · rw [hagrees.extents, hslice.extents, hresult]
  · have hle := start_add_span_le hcomposed hexact hslice helements
    rw [hagrees.dataHandle, hagrees.span_eq, hhandle]
    omega
  · intro js hjs
    obtain ⟨hsubOffset, hdirectOffset, -, htarget⟩ := haddress js hjs
    refine ⟨_, _, hsubOffset, hdirectOffset, htarget, ?_, ?_⟩
    · rw [hagrees.dataHandle, hhandle, Nat.cast_add, Int.add_assoc]
    · rw [hhandle, Nat.cast_add, Int.add_assoc]
  · intro hunique is js o his hjs hi hj
    obtain ⟨hio, -, hiin, hit⟩ := haddress is his
    obtain ⟨hjo, -, hjin, hjt⟩ := haddress js hjs
    rw [hi] at hio
    rw [hj] at hjo
    rw [Nat.cast_add, ← Option.some.inj hio] at hit
    rw [Nat.cast_add, ← Option.some.inj hjo] at hjt
    have hsame := hunique _ _ _ hiin hjin hit hjt
    have hself (ks : List ℕ) (hks : InRange ks sub.mapping.sizes) :
        ks.length = (kept (composeAll ss rest) (composeAll ss rest)).length := by
      rw [hks.length_eq, hagrees.sizes_eq, hslice.sizes_eq, List.length_map,
        ← length_kept_resultExtents (length_of_valid hcomposed) rfl]
    exact compose_injective (hself is his) (hself js hjs) hsame

/-- Of three rows of four the last two, and of these the second row from its
second column. -/
theorem submdspan_chain_rows :
    ∃ sub, submdspans (T := .int) ⟨5, .right [.dynamic 3, .static 4]⟩
        [[.pair 1 3, .full], [.scalar 1, .staticPair 1 4]] = some sub ∧
      sub.mapping.extents = [.static 3] ∧ sub.dataHandle + sub.mapping.span ≤ 5 + 12 := by
  have hvalid : ValidChain [.dynamic 3, .static 4]
      [[.pair 1 3, .full], [.scalar 1, .staticPair 1 4]] := by
    simp [ValidChain, Slice.Valid, Extent.value, resultExtents, kept, Slice.extent]
  obtain ⟨sub, -, hsub, -, hextents, -, hle, -⟩ :=
    submdspan_chain (T := .int) (by decide) ⟨5, .right [.dynamic 3, .static 4]⟩ _ _ hvalid trivial
      (by decide) (by decide)
  exact ⟨sub, hsub, hextents, hle⟩

end Libhipcxx.Mdspan
