import Libhipcxx.MemoryResource.Reference

/-!
# Chains of conversions

A reference obtained from a resource, directly or by any chain of conversions,
is the reference that the resource itself would give for the final properties:
every conversion copies the function pointers of the resource.  So its calls
are calls of the resource's own functions on the resource, and equality
compares the resources.
-/

namespace Libhipcxx.MemoryResource

open BasicResourceRef

variable {R P O : Type} [DecidableEq R] [DecidableEq P] {M : Program R P O}

/-! ## The filter -/

section Filter

variable {W : P → Bool} {property : P} {properties others : List P}

omit [DecidableEq R] in
theorem mem_filtered :
    property ∈ filtered W properties ↔
      property ∈ properties ∧ W property = true := by
  induction properties with
  | nil => simp [filtered]
  | cons head tail ih =>
      rw [filtered]
      split
      · rename_i hkeep
        rw [Bool.and_eq_true] at hkeep
        rw [List.mem_cons, List.mem_cons, ih]
        constructor
        · rintro (rfl | h)
          · exact ⟨Or.inl rfl, hkeep.1⟩
          · exact ⟨Or.inr h.1, h.2⟩
        · rintro ⟨rfl | h, hvalue⟩
          · exact Or.inl rfl
          · exact Or.inr ⟨h, hvalue⟩
      · rename_i hdrop
        rw [ih, List.mem_cons]
        refine and_congr_left fun hvalue => ⟨Or.inr, ?_⟩
        rintro (rfl | h)
        · simpa [hvalue] using hdrop
        · exact h

omit [DecidableEq R] in
theorem nodup_filtered (W : P → Bool) (properties : List P) :
    (filtered W properties).Nodup := by
  induction properties with
  | nil => exact List.nodup_nil
  | cons head tail ih =>
      rw [filtered]
      split
      · rename_i hkeep
        refine List.nodup_cons.mpr ⟨?_, ih⟩
        rw [mem_filtered]
        intro hmem
        simp [hmem.1] at hkeep
      · exact ih

omit [DecidableEq R] in
/-- Each valued property of the list is kept once, and nothing else. -/
theorem count_filtered (W : P → Bool) (properties : List P) (property : P) :
    (filtered W properties).count property =
      if property ∈ properties ∧ W property = true then 1 else 0 := by
  split
  · rename_i h
    exact List.count_eq_one_of_mem (nodup_filtered W properties)
      (mem_filtered.mpr h)
  · rename_i h
    exact List.count_eq_zero.mpr fun hmem => h (mem_filtered.mp hmem)

omit [DecidableEq R] in
theorem filtered_subset (h : oneOfEach properties others = true) :
    filtered W properties ⊆ filtered W others := by
  intro property hmem
  rw [mem_filtered] at hmem ⊢
  rw [oneOfEach, List.all_eq_true] at h
  exact ⟨by simpa using h property hmem.1, hmem.2⟩

end Filter

/-! ## Tables of one resource -/

namespace ResourceVtable

omit [DecidableEq R] in
theorem propertyFn_create (type : R) {property : P} {properties : List P}
    (h : property ∈ properties) :
    (create type properties).propertyFn property = some ⟨type, property⟩ := by
  induction properties with
  | nil => cases h
  | cons head tail ih =>
      rw [create, propertyFn]
      split
      · rename_i heq
        rw [heq]
      · rename_i hne
        exact ih ((List.mem_cons.mp h).resolve_left (Ne.symm hne))

omit [DecidableEq R] in
/-- Copying out of the table of a resource gives the table of that resource. -/
theorem copy_create (type : R) {properties others : List P}
    (h : properties ⊆ others) :
    (create type others).copy properties = some (create type properties) := by
  induction properties with
  | nil => rfl
  | cons head tail ih =>
      rw [List.cons_subset] at h
      rw [copy, propertyFn_create type h.1, ih h.2]
      rfl

end ResourceVtable

/-! ## References to one resource -/

/-- The reference that a resource gives for the properties. -/
def referenceTo (M : Program R P O) (r : Resource R O) (kind : AllocType)
    (properties : List P) : BasicResourceRef M kind properties where
  object := r.object
  staticVtable := createAlloc r.type kind
  vtable := ResourceVtable.create r.type _

variable {r s : Resource R O} {kind : AllocType} {properties others : List P}

omit [DecidableEq R] in
theorem ofResource_eq
    (h : resourceWith M r.type kind properties = true) :
    ofResource M r kind properties = some (referenceTo M r kind properties) :=
  if_pos h

omit [DecidableEq R] in
theorem ofSame_referenceTo (h : oneOfEach properties others = true) :
    (referenceTo M r kind others).ofSame properties =
      some (referenceTo M r kind properties) := by
  rw [ofSame, if_pos h, referenceTo,
    ResourceVtable.copy_create r.type (filtered_subset h)]
  rfl

omit [DecidableEq R] in
theorem ofAsync_referenceTo (h : oneOfEach properties others = true) :
    (referenceTo M r .async others).ofAsync properties =
      some (referenceTo M r .default properties) := by
  rw [ofAsync, if_pos h, referenceTo,
    ResourceVtable.copy_create r.type (filtered_subset h)]
  rfl

/-- The references obtained from a resource by a chain of constructors whose
constraints hold. -/
inductive Chain (M : Program R P O) (r : Resource R O) :
    (kind : AllocType) → (properties : List P) →
      BasicResourceRef M kind properties → Prop
  | resource {kind : AllocType} {properties : List P}
      {ref : BasicResourceRef M kind properties}
      (hstart : ofResource M r kind properties = some ref) :
      Chain M r kind properties ref
  | same {kind : AllocType} {properties others : List P}
      {source : BasicResourceRef M kind others}
      {ref : BasicResourceRef M kind properties}
      (hsource : Chain M r kind others source)
      (hconvert : source.ofSame properties = some ref) :
      Chain M r kind properties ref
  | async {properties others : List P}
      {source : BasicResourceRef M .async others}
      {ref : BasicResourceRef M .default properties}
      (hsource : Chain M r .async others source)
      (hconvert : source.ofAsync properties = some ref) :
      Chain M r .default properties ref

omit [DecidableEq R] in
/-- Whatever the chain, the reference is the one the resource gives for the
final properties. -/
theorem Chain.eq_referenceTo {ref : BasicResourceRef M kind properties}
    (h : Chain M r kind properties ref) : ref = referenceTo M r kind properties := by
  induction h with
  | resource hstart =>
      rw [ofResource] at hstart
      split at hstart
      · exact (Option.some.inj hstart).symm
      · cases hstart
  | @same _ properties others _ _ _ hconvert ih =>
      subst ih
      by_cases hsubset : oneOfEach properties others = true
      · rw [ofSame_referenceTo hsubset] at hconvert
        exact (Option.some.inj hconvert).symm
      · rw [ofSame, if_neg hsubset] at hconvert
        cases hconvert
  | @async properties others _ _ _ hconvert ih =>
      subst ih
      by_cases hsubset : oneOfEach properties others = true
      · rw [ofAsync_referenceTo hsubset] at hconvert
        exact (Option.some.inj hconvert).symm
      · rw [ofAsync, if_neg hsubset] at hconvert
        cases hconvert

/-! ## What a reference calls -/

section Calls

omit [DecidableEq R]

@[simp]
theorem alloc_createAlloc (type : R) (kind : AllocType) :
    (createAlloc type kind).alloc = ⟨⟨type⟩, ⟨type⟩, ⟨type⟩⟩ := by
  cases kind <;> rfl

theorem allocate_referenceTo :
    (referenceTo M r kind properties).allocate = M.allocate r.type r.object := by
  funext bytes alignment
  rw [BasicResourceRef.allocate, referenceTo, alloc_createAlloc]

theorem deallocate_referenceTo :
    (referenceTo M r kind properties).deallocate =
      M.deallocate r.type r.object := by
  funext ptr bytes alignment
  rw [BasicResourceRef.deallocate, referenceTo, alloc_createAlloc]

theorem getProperty_referenceTo {property : P}
    (hvalue : M.propertyWithValue property = true) (hmem : property ∈ properties) :
    (referenceTo M r kind properties).getProperty property =
      some fun s => ⟨property, M.getProperty r.type property r.object s⟩ := by
  have hfiltered : property ∈ filtered M.propertyWithValue properties :=
    mem_filtered.mpr ⟨hmem, hvalue⟩
  rw [BasicResourceRef.getProperty, if_pos ⟨hvalue, hmem⟩, referenceTo,
    ResourceVtable.propertyFn_create r.type hfiltered]
  rfl

end Calls

/-- The pointers to the equality functions are equal when the types are. -/
theorem eq_referenceTo (hlength : properties.length = others.length)
    (hsubset : oneOfEach properties others = true) :
    (referenceTo M r kind properties).eq (referenceTo M s kind others) =
      some (decide (r.type = s.type) && M.equal r.type r.object s.object) := by
  rw [BasicResourceRef.eq, if_pos ⟨hlength, hsubset⟩, referenceTo, referenceTo]
  simp only [alloc_createAlloc, EqualFn.mk.injEq]

/-- A filtered vtable has each valued property once.  A resource that satisfies
the constraints has a reference, which converts to every kind and list of
properties that the constraints admit; and a reference at the end of any chain
of conversions calls the functions of the resource on the resource.  Two
references of one kind compare equal exactly when their resources have one type
and compare equal. -/
theorem resourceRef_calls_resource (M : Program R P O) :
    (∀ properties property,
      (filtered M.propertyWithValue properties).count property =
        if property ∈ properties ∧ M.propertyWithValue property = true then 1
        else 0) ∧
    ∀ r : Resource R O,
      (∀ kind properties, resourceWith M r.type kind properties = true →
        ∃ ref, ofResource M r kind properties = some ref) ∧
      (∀ kind others (ref : BasicResourceRef M kind others),
        Chain M r kind others ref →
        ∀ properties, oneOfEach properties others = true →
        ∃ target, ref.ofSame properties = some target) ∧
      (∀ others (ref : BasicResourceRef M .async others),
        Chain M r .async others ref →
        ∀ properties, oneOfEach properties others = true →
        ∃ target, ref.ofAsync properties = some target) ∧
      (∀ kind properties (ref : BasicResourceRef M kind properties),
        Chain M r kind properties ref →
        ref.allocate = M.allocate r.type r.object ∧
        ref.deallocate = M.deallocate r.type r.object ∧
        ∀ property ∈ properties, M.propertyWithValue property = true →
          ref.getProperty property =
            some fun s => ⟨property, M.getProperty r.type property r.object s⟩) ∧
      (∀ properties (ref : BasicResourceRef M .async properties),
        Chain M r .async properties ref →
        ref.allocateAsync = M.allocateAsync r.type r.object ∧
        ref.deallocateAsync = M.deallocateAsync r.type r.object) ∧
      ∀ (s : Resource R O) (kind : AllocType) (properties others : List P)
        (left : BasicResourceRef M kind properties)
        (right : BasicResourceRef M kind others),
        Chain M r kind properties left → Chain M s kind others right →
        properties.length = others.length → oneOfEach properties others = true →
        (left.eq right = some true ↔
          r.type = s.type ∧ M.equal r.type r.object s.object = true) ∧
        (left.eq right).isSome = true := by
  refine ⟨count_filtered M.propertyWithValue, fun r => ⟨?_, ?_, ?_, ?_, ?_, ?_⟩⟩
  · intro kind properties h
    exact ⟨_, ofResource_eq h⟩
  · intro kind others ref h properties hsubset
    rw [h.eq_referenceTo]
    exact ⟨_, ofSame_referenceTo hsubset⟩
  · intro others ref h properties hsubset
    rw [h.eq_referenceTo]
    exact ⟨_, ofAsync_referenceTo hsubset⟩
  · intro kind properties ref h
    rw [h.eq_referenceTo]
    refine ⟨allocate_referenceTo, deallocate_referenceTo, ?_⟩
    intro property hmem hvalue
    exact getProperty_referenceTo hvalue hmem
  · intro properties ref h
    rw [h.eq_referenceTo]
    exact ⟨rfl, rfl⟩
  · intro s kind properties others left right hleft hright hlength hsubset
    rw [hleft.eq_referenceTo, hright.eq_referenceTo,
      eq_referenceTo hlength hsubset]
    refine ⟨?_, rfl⟩
    rw [Option.some.injEq, Bool.and_eq_true, decide_eq_true_iff]

end Libhipcxx.MemoryResource
