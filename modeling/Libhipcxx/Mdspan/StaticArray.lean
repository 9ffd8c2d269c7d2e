import Libhipcxx.Support.IntegerType

/-!
# The partially static array

`__standard_layout_psa` is a recursive type over a list of values and
sentinels.  A level with a value stores nothing, a level with the sentinel
stores an element of the index type, and every constructor either skips or
consumes an argument at each level.

The list of all elements, static and stored, is what the array means.  The
selectors `__get_n` and `__get` and the constructors are described by it.
-/

namespace Libhipcxx.Mdspan

abbrev SizeT := BitVec 64

/-- The sentinel. -/
def dynamicExtent : SizeT := -1

/-- `__standard_layout_psa` with its static, dynamic and terminal cases. -/
inductive StandardLayoutPsa (T : IntegerType) : List SizeT → Type
  | terminal : StandardLayoutPsa T []
  | static (value : SizeT) {values : List SizeT} (hvalue : value ≠ dynamicExtent)
      (next : StandardLayoutPsa T values) : StandardLayoutPsa T (value :: values)
  | dynamic (value : SizeT) {values : List SizeT} (hvalue : value = dynamicExtent)
      (first : ℤ) (hfirst : T.Fits first) (next : StandardLayoutPsa T values) :
      StandardLayoutPsa T (value :: values)

namespace StandardLayoutPsa

variable {T U : IntegerType} {values : List SizeT}

/-- The next level. -/
def next {value : SizeT} :
    StandardLayoutPsa T (value :: values) → StandardLayoutPsa T values
  | static _ _ next => next
  | dynamic _ _ _ _ next => next

/-! ## Selectors -/

/-- `__get_n<ip>` of the level `idx`; none past the last level. -/
def getN (ip idx : ℕ) {values : List SizeT} :
    StandardLayoutPsa T values → Option ℤ
  | terminal => none
  | static value _ next =>
      if ip ≠ idx then next.getN ip (idx + 1) else some (T.convert value.toNat)
  | dynamic _ _ first _ next =>
      if ip ≠ idx then next.getN ip (idx + 1) else some first

/-- `value * _Tp(mask) + rest`, in the type `C` of the operands, returned as
`T`; none where a signed operation overflows. -/
def maskedSum (T C : IntegerType) (value : ℤ) (mask : Bool) (rest : ℤ) :
    Option ℤ := do
  let product ← C.arith (C.convert value * C.convert (T.convert mask.toInt))
  let sum ← C.arith (product + C.convert rest)
  return T.convert sum

/-- `__get(n)` of the level `idx`. -/
def get (n idx : ℕ) {values : List SizeT} : StandardLayoutPsa T values → Option ℤ
  | terminal => some 0
  | static value _ next => do
      let rest ← next.get n (idx + 1)
      maskedSum T (IntegerType.size.common T) value.toNat (idx == n) rest
  | dynamic _ _ first _ next => do
      let rest ← next.get n (idx + 1)
      maskedSum T (T.common T) first (idx == n) rest

/-! ## Constructors -/

/-- From all values: a static level skips its argument. -/
def fromAllValues : (values : List SizeT) → List ℤ →
    Option (StandardLayoutPsa T values)
  | [], [] => some terminal
  | value :: values, val :: vals => do
      let next ← fromAllValues values vals
      if h : value = dynamicExtent then
        return dynamic value h (T.convert val) (T.fits_convert val) next
      else return static value h next
  | _, _ => none

/-- From dynamic values: a static level passes all arguments on. -/
def fromDynamicValues : (values : List SizeT) → List ℤ →
    Option (StandardLayoutPsa T values)
  | [], [] => some terminal
  | [], _ :: _ => none
  | value :: values, vals =>
      if h : value = dynamicExtent then
        match vals with
        | [] => none
        | val :: vals => do
            let next ← fromDynamicValues values vals
            return dynamic value h (T.convert val) (T.fits_convert val) next
      else do
        let next ← fromDynamicValues values vals
        return static value h next

/-- From an array or span of all values: a level reads the entry at its own
index. -/
def fromAllArray : (values : List SizeT) → ℕ → List ℤ →
    Option (StandardLayoutPsa T values)
  | [], _, _ => some terminal
  | value :: values, idx, vals => do
      let next ← fromAllArray values (idx + 1) vals
      if h : value = dynamicExtent then
        let val ← vals[idx]?
        return dynamic value h (T.convert val) (T.fits_convert val) next
      else return static value h next

/-- From an array or span of dynamic values: the tag counts the entries that
have been read. -/
def fromDynamicArray : (values : List SizeT) → ℕ → List ℤ →
    Option (StandardLayoutPsa T values)
  | [], _, _ => some terminal
  | value :: values, iDynamic, vals =>
      if h : value = dynamicExtent then do
        let val ← vals[iDynamic]?
        let next ← fromDynamicArray values (iDynamic + 1) vals
        return dynamic value h (T.convert val) (T.fits_convert val) next
      else do
        let next ← fromDynamicArray values iDynamic vals
        return static value h next

/-- From another partially static array: a static level skips the level of
the other one. -/
def fromPsa : (values others : List SizeT) → ℕ → StandardLayoutPsa U others →
    Option (StandardLayoutPsa T values)
  | [], _, _, _ => some terminal
  | _ :: _, [], _, _ => none
  | value :: values, _ :: others, idx, rhs => do
      let next ← fromPsa values others (idx + 1) rhs.next
      if h : value = dynamicExtent then
        let val ← rhs.getN idx idx
        return dynamic value h (T.convert val) (T.fits_convert val) next
      else return static value h next

/-! ## The elements -/

/-- All elements, as values of the index type. -/
def elements {values : List SizeT} : StandardLayoutPsa T values → List ℤ
  | terminal => []
  | static value _ next => T.convert value.toNat :: next.elements
  | dynamic _ _ first _ next => first :: next.elements

@[simp] theorem length_elements (psa : StandardLayoutPsa T values) :
    psa.elements.length = values.length := by
  induction psa with
  | terminal => rfl
  | static value hvalue next ih => simp [elements, ih]
  | dynamic value hvalue first hfirst next ih => simp [elements, ih]

theorem fits_of_mem_elements {psa : StandardLayoutPsa T values} {x : ℤ}
    (hx : x ∈ psa.elements) : T.Fits x := by
  induction psa with
  | terminal => cases hx
  | static value hvalue next ih =>
      rcases List.mem_cons.mp hx with rfl | hx
      · exact T.fits_convert _
      · exact ih hx
  | dynamic value hvalue first hfirst next ih =>
      rcases List.mem_cons.mp hx with rfl | hx
      · exact hfirst
      · exact ih hx

/-- The compile-time selector reads the elements. -/
theorem getN_eq (psa : StandardLayoutPsa T values) (r idx : ℕ) :
    psa.getN (idx + r) idx = psa.elements[r]? := by
  induction psa generalizing r idx with
  | terminal => rfl
  | static value hvalue next ih =>
      cases r with
      | zero => simp [getN, elements]
      | succ r =>
          have hne : idx + (r + 1) ≠ idx := by omega
          have hshift : idx + (r + 1) = idx + 1 + r := by omega
          rw [getN, if_pos hne, hshift, ih, elements, List.getElem?_cons_succ]
  | dynamic value hvalue first hfirst next ih =>
      cases r with
      | zero => simp [getN, elements]
      | succ r =>
          have hne : idx + (r + 1) ≠ idx := by omega
          have hshift : idx + (r + 1) = idx + 1 + r := by omega
          rw [getN, if_pos hne, hshift, ih, elements, List.getElem?_cons_succ]

/-- One level of the run-time selector: it keeps what the levels below give,
unless it is the selected one. -/
theorem maskedSum_eq {C : IntegerType} {value rest : ℤ} {mask : Bool}
    (hwidth : T.width ≤ C.width) (hone : C.Fits 1) (hvalue : C.Fits value)
    (hrest : T.Fits rest) (hmask : mask = true → rest = 0) :
    maskedSum T C value mask rest =
      some (if mask then T.convert value else rest) := by
  have hzero : C.convert 0 = 0 := C.convert_of_fits C.fits_zero
  cases mask with
  | true =>
      have hbit : C.convert (T.convert true.toInt) = 1 := by
        rw [Bool.toInt_true, IntegerType.convert_of_fits T.fits_one,
          IntegerType.convert_of_fits hone]
      rw [maskedSum, hbit, hmask rfl, IntegerType.convert_of_fits hvalue, mul_one,
        IntegerType.arith_of_fits hvalue, Option.bind_eq_bind, Option.bind_some,
        hzero, add_zero, IntegerType.arith_of_fits hvalue]
      rfl
  | false =>
      have hbit : C.convert (T.convert false.toInt) = 0 := by
        rw [Bool.toInt_false, IntegerType.convert_of_fits T.fits_zero, hzero]
      rw [maskedSum, hbit, mul_zero, IntegerType.arith_of_fits C.fits_zero,
        Option.bind_eq_bind, Option.bind_some, zero_add,
        IntegerType.arith_of_fits (C.fits_convert rest)]
      simp [IntegerType.convert_convert hwidth, IntegerType.convert_of_fits hrest]

/-- The element that `__get(n)` reads from the level `idx` on. -/
def select (elements : List ℤ) (n idx : ℕ) : ℤ :=
  if idx ≤ n then elements.getD (n - idx) 0 else 0

theorem select_cons (x : ℤ) (elements : List ℤ) (n idx : ℕ) :
    select (x :: elements) n idx =
      if (idx == n) = true then x else select elements n (idx + 1) := by
  unfold select
  by_cases heq : idx = n
  · simp [heq]
  · have hmask : ¬ (idx == n) = true := by simpa using heq
    rw [if_neg hmask]
    by_cases hle : idx ≤ n
    · have hshift : n - idx = n - (idx + 1) + 1 := by omega
      rw [if_pos hle, if_pos (by omega), hshift, List.getD_cons_succ]
    · rw [if_neg hle, if_neg (by omega)]

theorem select_past (elements : List ℤ) {n idx : ℕ} (h : (idx == n) = true) :
    select elements n (idx + 1) = 0 := by
  have heq : idx = n := by simpa using h
  exact if_neg (by omega)

theorem fits_select (psa : StandardLayoutPsa T values) (n idx : ℕ) :
    T.Fits (select psa.elements n idx) := by
  unfold select
  split
  · rw [List.getD_eq_getElem?_getD]
    cases hx : psa.elements[n - idx]? with
    | none => exact T.fits_zero
    | some x => exact fits_of_mem_elements (List.mem_of_getElem? hx)
  · exact T.fits_zero

theorem fits_size (value : SizeT) : IntegerType.size.Fits value.toNat := by
  have hlt := value.isLt
  simp only [IntegerType.Fits, IntegerType.min, IntegerType.max,
    IntegerType.size]
  simp only [Bool.false_eq_true, ↓reduceIte]
  omega

/-- The run-time selector reads the elements, and is zero outside. -/
theorem get_eq (psa : StandardLayoutPsa T values) (n idx : ℕ) :
    psa.get n idx = some (select psa.elements n idx) := by
  induction psa generalizing idx with
  | terminal => simp [get, elements, select]
  | static value hvalue next ih =>
      have hfits : (IntegerType.size.common T).Fits value.toNat :=
        IntegerType.fits_common_left T (fits_size value) (Int.natCast_nonneg _)
      have hone : (IntegerType.size.common T).Fits 1 :=
        IntegerType.fits_common_right _ T.fits_one (by decide)
      rw [get, ih, Option.bind_eq_bind, Option.bind_some,
        maskedSum_eq (IntegerType.width_le_common_right _ _) hone hfits
          (fits_select next n _) (select_past _), elements, select_cons]
  | dynamic value hvalue first hfirst next ih =>
      have hfits : (T.common T).Fits first := by
        rw [IntegerType.common_self]
        exact IntegerType.fits_promote hfirst
      have hone : (T.common T).Fits 1 :=
        IntegerType.fits_common_right _ T.fits_one (by decide)
      rw [get, ih, Option.bind_eq_bind, Option.bind_some,
        maskedSum_eq (IntegerType.width_le_common_right _ _) hone hfits
          (fits_select next n _) (select_past _),
        IntegerType.convert_of_fits hfirst, elements, select_cons]

/-! ## What the constructors store -/

/-- The elements of an array whose dimension `r` has been supplied with
`supplied r`; a static dimension ignores it. -/
def expected (T : IntegerType) (values : List SizeT) (supplied : ℕ → ℤ) :
    List ℤ :=
  values.mapIdx fun r value =>
    T.convert (if value = dynamicExtent then supplied r else value.toNat)

theorem expected_cons (value : SizeT) (values : List SizeT) (supplied : ℕ → ℤ) :
    expected T (value :: values) supplied =
      T.convert (if value = dynamicExtent then supplied 0 else value.toNat) ::
        expected T values fun r => supplied (r + 1) := by
  rw [expected, List.mapIdx_cons]
  rfl

/-- The number of dynamic dimensions before `r`. -/
def dynamicIndex (values : List SizeT) (r : ℕ) : ℕ :=
  (values.take r).count dynamicExtent

theorem fromAllValues_eq {vals : List ℤ} (h : vals.length = values.length) :
    ∃ psa : StandardLayoutPsa T values, fromAllValues values vals = some psa ∧
      psa.elements = expected T values fun r => vals.getD r 0 := by
  induction values generalizing vals with
  | nil =>
      obtain rfl := List.length_eq_zero_iff.mp h
      exact ⟨terminal, rfl, rfl⟩
  | cons value values ih =>
      obtain ⟨val, vals, rfl⟩ := List.exists_cons_of_length_eq_add_one h
      obtain ⟨next, hnext, helements⟩ := ih (Nat.succ.inj h)
      rw [fromAllValues, hnext, expected_cons]
      by_cases hvalue : value = dynamicExtent
      · refine ⟨dynamic value hvalue _ (T.fits_convert val) next, ?_, ?_⟩
        · simp [hvalue]
        · simp [elements, hvalue, helements]
      · refine ⟨static value hvalue next, ?_, ?_⟩
        · simp [hvalue]
        · simp [elements, hvalue, helements]

theorem fromDynamicValues_eq {vals : List ℤ}
    (h : vals.length = values.count dynamicExtent) :
    ∃ psa : StandardLayoutPsa T values,
      fromDynamicValues values vals = some psa ∧
      psa.elements =
        expected T values fun r => vals.getD (dynamicIndex values r) 0 := by
  induction values generalizing vals with
  | nil =>
      obtain rfl := List.length_eq_zero_iff.mp h
      exact ⟨terminal, rfl, rfl⟩
  | cons value values ih =>
      by_cases hvalue : value = dynamicExtent
      · rw [hvalue, List.count_cons_self] at h
        obtain ⟨val, vals, rfl⟩ := List.exists_cons_of_length_eq_add_one h
        obtain ⟨next, hnext, helements⟩ := ih (Nat.succ.inj h)
        refine ⟨dynamic value hvalue _ (T.fits_convert val) next, ?_, ?_⟩
        · simp [fromDynamicValues, hvalue, hnext]
        · simp [expected_cons, elements, hvalue, helements, dynamicIndex]
      · rw [List.count_cons_of_ne hvalue] at h
        obtain ⟨next, hnext, helements⟩ := ih h
        refine ⟨static value hvalue next, ?_, ?_⟩
        · simp [fromDynamicValues, hvalue, hnext]
        · simp [expected_cons, elements, hvalue, helements, dynamicIndex]

theorem fromAllArray_eq {vals : List ℤ} {idx : ℕ}
    (h : idx + values.length ≤ vals.length) :
    ∃ psa : StandardLayoutPsa T values,
      fromAllArray values idx vals = some psa ∧
      psa.elements = expected T values fun r => vals.getD (idx + r) 0 := by
  induction values generalizing idx with
  | nil => exact ⟨terminal, rfl, rfl⟩
  | cons value values ih =>
      rw [List.length_cons] at h
      obtain ⟨next, hnext, helements⟩ := @ih (idx + 1) (by omega)
      have hval : vals[idx]? = some (vals.getD idx 0) := by
        rw [List.getD_eq_getElem?_getD, List.getElem?_eq_getElem (by omega)]
        rfl
      rw [fromAllArray, hnext, expected_cons]
      by_cases hvalue : value = dynamicExtent
      · refine ⟨dynamic value hvalue _ (T.fits_convert (vals.getD idx 0)) next, ?_, ?_⟩
        · rw [Option.bind_eq_bind, Option.bind_some, dif_pos hvalue, hval]
          rfl
        · simp [elements, hvalue, helements, Nat.add_comm, Nat.add_left_comm]
      · refine ⟨static value hvalue next, ?_, ?_⟩
        · simp [hvalue]
        · simp [elements, hvalue, helements, Nat.add_comm, Nat.add_left_comm]

theorem fromDynamicArray_eq {vals : List ℤ} {iDynamic : ℕ}
    (h : iDynamic + values.count dynamicExtent ≤ vals.length) :
    ∃ psa : StandardLayoutPsa T values,
      fromDynamicArray values iDynamic vals = some psa ∧
      psa.elements = expected T values fun r =>
        vals.getD (iDynamic + dynamicIndex values r) 0 := by
  induction values generalizing iDynamic with
  | nil => exact ⟨terminal, rfl, rfl⟩
  | cons value values ih =>
      by_cases hvalue : value = dynamicExtent
      · rw [hvalue, List.count_cons_self] at h
        obtain ⟨next, hnext, helements⟩ := @ih (iDynamic + 1) (by omega)
        have hval : vals[iDynamic]? = some (vals.getD iDynamic 0) := by
          rw [List.getD_eq_getElem?_getD, List.getElem?_eq_getElem (by omega)]
          rfl
        refine ⟨dynamic value hvalue _ (T.fits_convert (vals.getD iDynamic 0)) next, ?_, ?_⟩
        · rw [fromDynamicArray, dif_pos hvalue, hval, Option.bind_eq_bind,
            Option.bind_some, hnext]
          rfl
        · simp [expected_cons, elements, hvalue, helements, dynamicIndex,
            Nat.add_comm, Nat.add_assoc]
      · rw [List.count_cons_of_ne hvalue] at h
        obtain ⟨next, hnext, helements⟩ := ih h
        refine ⟨static value hvalue next, ?_, ?_⟩
        · simp [fromDynamicArray, hvalue, hnext]
        · simp [expected_cons, elements, hvalue, helements, dynamicIndex]

theorem fromPsa_eq {others : List SizeT} {rhs : StandardLayoutPsa U others}
    {idx : ℕ} (h : values.length = others.length) :
    ∃ psa : StandardLayoutPsa T values,
      fromPsa values others idx rhs = some psa ∧
      psa.elements = expected T values fun r => rhs.elements.getD r 0 := by
  induction values generalizing others idx with
  | nil => exact ⟨terminal, by rw [fromPsa], rfl⟩
  | cons value values ih =>
      obtain ⟨other, others, rfl⟩ := List.exists_cons_of_length_eq_add_one h.symm
      obtain ⟨next, hnext, helements⟩ :=
        @ih others rhs.next (idx + 1) (Nat.succ.inj h)
      have hval : rhs.getN idx idx = rhs.elements[0]? := getN_eq rhs 0 idx
      have hparts : ∃ first, rhs.elements = first :: rhs.next.elements := by
        cases rhs with
        | static _ _ next => exact ⟨_, rfl⟩
        | dynamic _ _ first _ next => exact ⟨_, rfl⟩
      obtain ⟨first, hfirst⟩ := hparts
      rw [hfirst] at hval ⊢
      rw [fromPsa, hnext, expected_cons]
      by_cases hvalue : value = dynamicExtent
      · refine ⟨dynamic value hvalue _ (T.fits_convert first) next, ?_, ?_⟩
        · rw [Option.bind_eq_bind, Option.bind_some, dif_pos hvalue, hval]
          rfl
        · simp [elements, hvalue, helements]
      · refine ⟨static value hvalue next, ?_, ?_⟩
        · simp [hvalue]
        · simp [elements, hvalue, helements]

end StandardLayoutPsa

end Libhipcxx.Mdspan
