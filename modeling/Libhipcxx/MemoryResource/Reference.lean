import Mathlib.Data.List.Basic
import Mathlib.Data.List.Count
import Mathlib.Data.List.Nodup

/-!
# Memory resource references

A `basic_resource_ref` keeps the address of an object, a pointer to the static
vtable of the allocation functions, and a table with one function pointer for
each of its valued properties.  Types are erased: what a reference calls is
determined by the function pointers alone.

A function pointer is the instantiation it points to, so that distinct
instantiations have distinct addresses.  A conversion copies the pointers of
the properties one by one out of the table of the source.
-/

namespace Libhipcxx.MemoryResource

/-! ## Resources -/

/-- A resource type `R` and the address of an object of that type. -/
structure Resource (R O : Type) where
  type : R
  object : O

/-- What the program supplies: which types satisfy the concepts, which
properties have a value, and the functions of each type.  Functions that
allocate change a state. -/
structure Program (R P O : Type) where
  Pointer : Type
  Stream : Type
  State : Type
  Value : P → Type
  isResource : R → Bool
  isAsyncResource : R → Bool
  hasProperty : R → P → Bool
  propertyWithValue : P → Bool
  allocate : R → O → ℕ → ℕ → State → Pointer × State
  deallocate : R → O → Pointer → ℕ → ℕ → State → State
  allocateAsync : R → O → ℕ → ℕ → Stream → State → Pointer × State
  deallocateAsync : R → O → Pointer → ℕ → ℕ → Stream → State → State
  equal : R → O → O → Bool
  getProperty : R → (p : P) → O → State → Value p

inductive AllocType where
  | default
  | async
  deriving DecidableEq

variable {R P O : Type} [DecidableEq R] [DecidableEq P]

/-! ## Function pointers and vtables -/

/-- Pointers to the instantiations of a template of the builder, one type for
each template. -/
structure AllocFn (R : Type) where
  resource : R
  deriving DecidableEq

structure DeallocFn (R : Type) where
  resource : R
  deriving DecidableEq

structure EqualFn (R : Type) where
  resource : R
  deriving DecidableEq

structure AsyncAllocFn (R : Type) where
  resource : R
  deriving DecidableEq

structure AsyncDeallocFn (R : Type) where
  resource : R
  deriving DecidableEq

/-- A pointer to `_Get_property<resource, property>`. -/
structure PropertyFn (R P : Type) where
  resource : R
  property : P
  deriving DecidableEq

structure AllocVtable (R : Type) where
  allocFn : AllocFn R
  deallocFn : DeallocFn R
  equalFn : EqualFn R

structure AsyncAllocVtable (R : Type) extends AllocVtable R where
  asyncAllocFn : AsyncAllocFn R
  asyncDeallocFn : AsyncDeallocFn R

/-- `_Vtable_store`. -/
def VtableStore (R : Type) : AllocType → Type
  | .default => AllocVtable R
  | .async => AsyncAllocVtable R

/-- The base class of the static vtable. -/
def VtableStore.alloc : {kind : AllocType} → VtableStore R kind → AllocVtable R
  | .default, vtable => vtable
  | .async, vtable => AsyncAllocVtable.toAllocVtable vtable

/-- `_Resource_vtable_builder::_Create`. -/
def createAlloc (type : R) : (kind : AllocType) → VtableStore R kind
  | .default => AllocVtable.mk ⟨type⟩ ⟨type⟩ ⟨type⟩
  | .async => AsyncAllocVtable.mk ⟨⟨type⟩, ⟨type⟩, ⟨type⟩⟩ ⟨type⟩ ⟨type⟩

/-- `_Resource_vtable`: a base class `_Property_vtable` for each property. -/
inductive ResourceVtable (R P : Type) : List P → Type
  | nil : ResourceVtable R P []
  | cons (property : P) {properties : List P} (propertyFn : PropertyFn R P)
      (rest : ResourceVtable R P properties) :
      ResourceVtable R P (property :: properties)

namespace ResourceVtable

/-- The function pointer of the base class of a property. -/
def propertyFn (property : P) {properties : List P} :
    ResourceVtable R P properties → Option (PropertyFn R P)
  | nil => none
  | cons base fn rest =>
      if base = property then some fn else rest.propertyFn property

/-- `_Resource_vtable::_Create`. -/
def create (type : R) : (properties : List P) → ResourceVtable R P properties
  | [] => nil
  | property :: properties =>
      cons property ⟨type, property⟩ (create type properties)

/-- The constructor from a reference: one base class after the other. -/
def copy {others : List P} (source : ResourceVtable R P others) :
    (properties : List P) → Option (ResourceVtable R P properties)
  | [] => some nil
  | property :: properties => do
      let fn ← source.propertyFn property
      let rest ← source.copy properties
      return cons property fn rest

end ResourceVtable

/-! ## The filter -/

/-- `_Filtered_vtable`: a property stays if it has a value and does not occur
again. -/
def filtered (propertyWithValue : P → Bool) : List P → List P
  | [] => []
  | property :: properties =>
      if propertyWithValue property && !properties.contains property then
        property :: filtered propertyWithValue properties
      else filtered propertyWithValue properties

/-! ## References -/

/-- `basic_resource_ref<kind, properties...>`. -/
structure BasicResourceRef (M : Program R P O) (kind : AllocType)
    (properties : List P) where
  object : O
  staticVtable : VtableStore R kind
  vtable : ResourceVtable R P (filtered M.propertyWithValue properties)

namespace BasicResourceRef

variable {M : Program R P O}

/-- The constraint of the constructors from a resource. -/
def resourceWith (M : Program R P O) (type : R) (kind : AllocType)
    (properties : List P) : Bool :=
  (match kind with
    | .default => M.isResource type
    | .async => M.isAsyncResource type) &&
  properties.all fun property => M.hasProperty type property

/-- The constructors from a resource and from a pointer to one. -/
def ofResource (M : Program R P O) (resource : Resource R O) (kind : AllocType)
    (properties : List P) : Option (BasicResourceRef M kind properties) :=
  if resourceWith M resource.type kind properties then
    some {
      object := resource.object
      staticVtable := createAlloc resource.type kind
      vtable := ResourceVtable.create resource.type _ }
  else none

/-- Every property of the first list is one of the second. -/
def oneOfEach (properties others : List P) : Bool :=
  properties.all fun property => others.contains property

/-- The constructor from a reference of the same kind. -/
def ofSame {kind : AllocType} {others : List P} (ref : BasicResourceRef M kind others)
    (properties : List P) : Option (BasicResourceRef M kind properties) :=
  if oneOfEach properties others then do
    let vtable ← ref.vtable.copy _
    return { ref with vtable := vtable }
  else none

/-- The constructor of a default reference from an asynchronous one. -/
def ofAsync {others : List P} (ref : BasicResourceRef M .async others)
    (properties : List P) : Option (BasicResourceRef M .default properties) :=
  if oneOfEach properties others then do
    let vtable ← ref.vtable.copy _
    return ⟨ref.object, VtableStore.alloc ref.staticVtable, vtable⟩
  else none

variable {kind : AllocType} {properties others : List P}

def allocate (ref : BasicResourceRef M kind properties) (bytes alignment : ℕ) :
    M.State → M.Pointer × M.State :=
  M.allocate ref.staticVtable.alloc.allocFn.resource ref.object bytes alignment

def deallocate (ref : BasicResourceRef M kind properties) (ptr : M.Pointer)
    (bytes alignment : ℕ) : M.State → M.State :=
  M.deallocate ref.staticVtable.alloc.deallocFn.resource ref.object ptr bytes
    alignment

def allocateAsync (ref : BasicResourceRef M .async properties)
    (bytes alignment : ℕ) (stream : M.Stream) : M.State → M.Pointer × M.State :=
  M.allocateAsync (AsyncAllocVtable.asyncAllocFn ref.staticVtable).resource
    ref.object bytes alignment stream

def deallocateAsync (ref : BasicResourceRef M .async properties)
    (ptr : M.Pointer) (bytes alignment : ℕ) (stream : M.Stream) :
    M.State → M.State :=
  M.deallocateAsync (AsyncAllocVtable.asyncDeallocFn ref.staticVtable).resource
    ref.object ptr bytes alignment stream

/-- `get_property` of a valued property: the value, with the property whose
function computed it. -/
def getProperty (ref : BasicResourceRef M kind properties) (property : P) :
    Option (M.State → (p : P) × M.Value p) :=
  if M.propertyWithValue property ∧ property ∈ properties then do
    let fn ← ref.vtable.propertyFn property
    return fun s => ⟨fn.property, M.getProperty fn.resource fn.property ref.object s⟩
  else none

/-- `operator==`; none where its constraint does not hold. -/
def eq (left : BasicResourceRef M kind properties)
    (right : BasicResourceRef M kind others) : Option Bool :=
  if properties.length = others.length ∧ oneOfEach properties others then
    let equalFn := left.staticVtable.alloc.equalFn
    some (equalFn = right.staticVtable.alloc.equalFn &&
      M.equal equalFn.resource left.object right.object)
  else none

end BasicResourceRef

end Libhipcxx.MemoryResource
