import Mathlib.Algebra.BigOperators.Group.List.Basic
import Mathlib.Algebra.GroupWithZero.Nat
import Mathlib.Algebra.Order.Group.Nat
import Mathlib.Algebra.Ring.Int.Defs
import Mathlib.Data.List.Forall2
import Mathlib.Data.Nat.Cast.Basic
import Mathlib.Data.Set.Function

/-!
# Mixed radix

A digit for each radix, below it, names a number below the product of the
radices.  The weights of the digits are products of radices: of those before
the digit when the least significant digit is first, of those after it when it
is last.
-/

namespace Libhipcxx.MixedRadix

/-- Every digit is below its radix. -/
abbrev InRange (digits radices : List ℕ) : Prop := List.Forall₂ (· < ·) digits radices

/-- Sum of digits by weights. -/
def dot (digits weights : List ℕ) : ℕ := (List.zipWith (· * ·) digits weights).sum

/-- Weights of digits with the least significant one first. -/
def weights : List ℕ → List ℕ
  | [] => []
  | b :: bs => 1 :: (weights bs).map (b * ·)

/-- Weights of digits with the most significant one first. -/
def topWeights : List ℕ → List ℕ
  | [] => []
  | _ :: bs => bs.prod :: topWeights bs

@[simp] theorem dot_nil (ws : List ℕ) : dot [] ws = 0 := rfl

@[simp] theorem dot_cons (d : ℕ) (ds : List ℕ) (w : ℕ) (ws : List ℕ) :
    dot (d :: ds) (w :: ws) = d * w + dot ds ws := by
  simp [dot]

theorem dot_map_mul (b : ℕ) (ds ws : List ℕ) :
    dot ds (ws.map (b * ·)) = b * dot ds ws := by
  induction ds generalizing ws with
  | nil => rfl
  | cons d ds ih =>
    cases ws with
    | nil => rfl
    | cons w ws =>
      rw [List.map_cons, dot_cons, dot_cons, ih, Nat.mul_add, Nat.mul_left_comm]

theorem dot_weights_cons (d : ℕ) (ds : List ℕ) (b : ℕ) (bs : List ℕ) :
    dot (d :: ds) (weights (b :: bs)) = d + b * dot ds (weights bs) := by
  rw [weights, dot_cons, dot_map_mul, Nat.mul_one]

@[simp] theorem length_weights (bs : List ℕ) : (weights bs).length = bs.length := by
  induction bs with
  | nil => rfl
  | cons b bs ih => simp [weights, ih]

@[simp] theorem length_topWeights (bs : List ℕ) :
    (topWeights bs).length = bs.length := by
  induction bs with
  | nil => rfl
  | cons b bs ih => simp [topWeights, ih]

theorem weights_getElem? (bs : List ℕ) {r : ℕ} (hr : r < bs.length) :
    (weights bs)[r]? = some (bs.take r).prod := by
  induction bs generalizing r with
  | nil => simp at hr
  | cons b bs ih =>
    cases r with
    | zero => rfl
    | succ r =>
      have hr' : r < bs.length := by simpa using hr
      simp [weights, ih hr']

theorem topWeights_getElem? (bs : List ℕ) {r : ℕ} (hr : r < bs.length) :
    (topWeights bs)[r]? = some (bs.drop (r + 1)).prod := by
  induction bs generalizing r with
  | nil => simp at hr
  | cons b bs ih =>
    cases r with
    | zero => rfl
    | succ r =>
      have hr' : r < bs.length := by simpa using hr
      simpa [topWeights] using ih hr'

theorem dot_eq_sum {ds ws : List ℕ} (weight : ℕ → ℕ)
    (h : ∀ r < ds.length, ws[r]? = some (weight r)) :
    dot ds ws =
      ((List.range ds.length).map fun r => ds.getD r 0 * weight r).sum := by
  induction ds generalizing ws weight with
  | nil => rfl
  | cons d ds ih =>
    have hhead := h 0 (Nat.zero_lt_succ _)
    cases ws with
    | nil => simp at hhead
    | cons w ws =>
      have hw : w = weight 0 := by simpa using hhead
      have htail : ∀ r < ds.length, ws[r]? = some (weight (r + 1)) := by
        intro r hr
        simpa using h (r + 1) (Nat.succ_lt_succ hr)
      rw [dot_cons, ih (fun r => weight (r + 1)) htail, List.length_cons,
        List.range_succ_eq_map, hw]
      simp [Function.comp_def]

theorem getD_mul_le_dot (ds ws : List ℕ) (r : ℕ) : ds.getD r 0 * ws.getD r 0 ≤ dot ds ws := by
  induction ds generalizing ws r with
  | nil => rw [List.getD_nil, Nat.zero_mul]; exact Nat.zero_le _
  | cons d ds ih =>
    cases ws with
    | nil => rw [List.getD_nil, Nat.mul_zero]; exact Nat.zero_le _
    | cons w ws =>
      rw [dot_cons]
      cases r with
      | zero => exact Nat.le_add_right _ _
      | succ r => exact (ih ws r).trans (Nat.le_add_left _ _)

/-! ## The least significant digit first -/

theorem dot_weights_lt {ds bs : List ℕ} (h : InRange ds bs) :
    dot ds (weights bs) < bs.prod := by
  induction h with
  | nil => exact Nat.one_pos
  | @cons d b ds bs hd _ ih =>
    rw [dot_weights_cons, List.prod_cons]
    calc d + b * dot ds (weights bs) < b + b * dot ds (weights bs) :=
          Nat.add_lt_add_right hd _
      _ = b * (dot ds (weights bs) + 1) := by rw [Nat.mul_add, Nat.mul_one, Nat.add_comm]
      _ ≤ b * bs.prod := Nat.mul_le_mul_left b ih

theorem dot_weights_injective {ds ds' bs : List ℕ} (h : InRange ds bs)
    (h' : InRange ds' bs) (heq : dot ds (weights bs) = dot ds' (weights bs)) :
    ds = ds' := by
  induction h generalizing ds' with
  | nil => exact (List.forall₂_nil_right_iff.mp h').symm
  | @cons d b ds bs hd _ ih =>
    obtain ⟨d', ds', hd', hds', rfl⟩ := List.forall₂_cons_right_iff.mp h'
    rw [dot_weights_cons, dot_weights_cons] at heq
    have hdigit : d = d' := by
      have hmod := congrArg (· % b) heq
      simpa [Nat.add_mul_mod_self_left, Nat.mod_eq_of_lt hd, Nat.mod_eq_of_lt hd']
        using hmod
    subst hdigit
    have hrest := Nat.eq_of_mul_eq_mul_left (Nat.zero_lt_of_lt hd)
      (Nat.add_left_cancel heq)
    rw [ih hds' hrest]

theorem exists_dot_weights {bs : List ℕ} {n : ℕ} (h : n < bs.prod) :
    ∃ ds, InRange ds bs ∧ dot ds (weights bs) = n := by
  induction bs generalizing n with
  | nil =>
    have hn : n = 0 := Nat.lt_one_iff.mp (by simpa using h)
    exact ⟨[], List.Forall₂.nil, hn.symm⟩
  | cons b bs ih =>
    rw [List.prod_cons] at h
    have hb : 0 < b := Nat.pos_of_ne_zero fun hzero => by simp [hzero] at h
    obtain ⟨ds, hds, hdot⟩ := ih (Nat.div_lt_of_lt_mul h)
    refine ⟨n % b :: ds, List.Forall₂.cons (Nat.mod_lt n hb) hds, ?_⟩
    rw [dot_weights_cons, hdot]
    exact Nat.mod_add_div n b

/-- Digits in range name the numbers below the product, each exactly once. -/
theorem bijOn_weights (bs : List ℕ) :
    Set.BijOn (fun ds => dot ds (weights bs)) {ds | InRange ds bs}
      (Set.Iio bs.prod) := by
  refine ⟨?_, ?_, ?_⟩
  · intro ds hds
    exact dot_weights_lt hds
  · intro ds hds ds' hds' heq
    exact dot_weights_injective hds hds' heq
  · intro n hn
    exact exists_dot_weights hn

/-! ## The most significant digit first -/

theorem dot_append_singleton {ds ws : List ℕ} (h : ds.length = ws.length)
    (d w : ℕ) : dot (ds ++ [d]) (ws ++ [w]) = dot ds ws + d * w := by
  simp [dot, List.zipWith_append h]

theorem dot_reverse {ds ws : List ℕ} (h : ds.length = ws.length) :
    dot ds.reverse ws.reverse = dot ds ws := by
  induction ds generalizing ws with
  | nil => rfl
  | cons d ds ih =>
    cases ws with
    | nil => simp at h
    | cons w ws =>
      have h' : ds.length = ws.length := by simpa using h
      rw [List.reverse_cons, List.reverse_cons,
        dot_append_singleton (by simpa using h'), ih h', dot_cons, Nat.add_comm]

theorem weights_append_singleton (bs : List ℕ) (b : ℕ) :
    weights (bs ++ [b]) = weights bs ++ [bs.prod] := by
  induction bs with
  | nil => rfl
  | cons c bs ih => simp [weights, ih]

theorem topWeights_eq_reverse (bs : List ℕ) :
    topWeights bs = (weights bs.reverse).reverse := by
  induction bs with
  | nil => rfl
  | cons b bs ih =>
    rw [List.reverse_cons, weights_append_singleton, List.reverse_append,
      List.reverse_singleton, List.singleton_append, ← ih, topWeights,
      List.prod_reverse]

theorem dot_topWeights {ds bs : List ℕ} (h : InRange ds bs) :
    dot ds (topWeights bs) = dot ds.reverse (weights bs.reverse) := by
  have hlength : ds.reverse.length = (weights bs.reverse).length := by
    simpa using h.length_eq
  rw [topWeights_eq_reverse, ← dot_reverse hlength, List.reverse_reverse]

theorem dot_topWeights_lt {ds bs : List ℕ} (h : InRange ds bs) :
    dot ds (topWeights bs) < bs.prod := by
  rw [dot_topWeights h, ← List.prod_reverse]
  exact dot_weights_lt (List.rel_reverse h)

theorem bijOn_topWeights (bs : List ℕ) :
    Set.BijOn (fun ds => dot ds (topWeights bs)) {ds | InRange ds bs}
      (Set.Iio bs.prod) := by
  refine ⟨?_, ?_, ?_⟩
  · intro ds hds
    exact dot_topWeights_lt hds
  · intro ds hds ds' hds' heq
    simp only [dot_topWeights hds, dot_topWeights hds'] at heq
    exact List.reverse_injective
      (dot_weights_injective (List.rel_reverse hds) (List.rel_reverse hds') heq)
  · intro n hn
    obtain ⟨ds, hds, hdot⟩ :=
      @exists_dot_weights bs.reverse n (by rwa [List.prod_reverse])
    have hds' : InRange ds.reverse bs := by
      simpa using List.rel_reverse hds
    refine ⟨ds.reverse, hds', ?_⟩
    simp only [dot_topWeights hds', List.reverse_reverse]
    exact hdot

/-! ## Weights that may be negative -/

/-- Sum of digits by weights. -/
def dotInt (digits : List ℕ) (weights : List ℤ) : ℤ :=
  (List.zipWith (fun d w => (d : ℤ) * w) digits weights).sum

@[simp] theorem dotInt_nil (ws : List ℤ) : dotInt [] ws = 0 := rfl

@[simp] theorem dotInt_cons (d : ℕ) (ds : List ℕ) (w : ℤ) (ws : List ℤ) :
    dotInt (d :: ds) (w :: ws) = d * w + dotInt ds ws := by
  simp [dotInt]

theorem dotInt_cast (ds ws : List ℕ) : dotInt ds (ws.map Nat.cast) = (dot ds ws : ℕ) := by
  induction ds generalizing ws with
  | nil => rfl
  | cons d ds ih =>
    cases ws with
    | nil => rfl
    | cons w ws => rw [List.map_cons, dotInt_cons, ih, dot_cons, Nat.cast_add, Nat.cast_mul]

/-- Weights that are not negative are natural numbers. -/
theorem map_cast_toNat {ws : List ℤ} (h : ∀ w ∈ ws, 0 ≤ w) :
    (ws.map Int.toNat).map Nat.cast = ws := by
  rw [List.map_map]
  exact (List.map_congr_left fun w hw => Int.toNat_of_nonneg (h w hw)).trans (List.map_id' ws)

end Libhipcxx.MixedRadix
