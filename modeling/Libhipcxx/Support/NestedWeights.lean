import Libhipcxx.Support.MixedRadix
import Mathlib.Data.List.Perm.Basic
import Mathlib.Data.Set.Card
import Mathlib.Order.Interval.Set.Nat

/-!
# Nested weights

Digits below their radices name a number by weights that are not the products
of the radices.  Different digits name different numbers if, in some order,
each weight is at least the radix by the weight before it.  The numbers are
then all those up to the greatest exactly if there are as many of them.
-/

namespace Libhipcxx.MixedRadix

/-- In some order, each weight is at least the radix by the weight before it. -/
def Nested (radices weights : List ℕ) : Prop :=
  ∃ order : List (ℕ × ℕ), order.Perm (radices.zip weights) ∧
    order.IsChain fun d d' => d.2 * d.1 ≤ d'.2

/-- The number with the greatest digits. -/
def greatest (radices weights : List ℕ) : ℕ := dot (radices.map (· - 1)) weights

variable {bs ds ds' ws : List ℕ}

@[simp] theorem greatest_nil (ws : List ℕ) : greatest [] ws = 0 := rfl

@[simp] theorem greatest_cons (b : ℕ) (bs : List ℕ) (w : ℕ) (ws : List ℕ) :
    greatest (b :: bs) (w :: ws) = (b - 1) * w + greatest bs ws :=
  dot_cons _ _ _ _

theorem dot_le_greatest (h : InRange ds bs) (ws : List ℕ) : dot ds ws ≤ greatest bs ws := by
  induction h generalizing ws with
  | nil => exact le_rfl
  | @cons d b ds bs hd _ ih =>
    cases ws with
    | nil => exact le_rfl
    | cons w ws =>
      rw [dot_cons, greatest_cons]
      exact Nat.add_le_add (Nat.mul_le_mul_right w (Nat.le_sub_one_of_lt hd)) (ih ws)

theorem inRange_greatest (h : ∀ b ∈ bs, 0 < b) : InRange (bs.map (· - 1)) bs := by
  induction bs with
  | nil => exact List.Forall₂.nil
  | cons b bs ih =>
    obtain ⟨hb, hbs⟩ := List.forall_mem_cons.mp h
    exact List.Forall₂.cons (Nat.sub_one_lt_of_lt hb) (ih hbs)

theorem greatest_map_mul (b : ℕ) (bs ws : List ℕ) :
    greatest bs (ws.map (b * ·)) = b * greatest bs ws := dot_map_mul b _ ws

/-- By the products of the radices, the greatest digits name the last number. -/
theorem one_add_greatest_weights (h : ∀ b ∈ bs, 0 < b) :
    1 + greatest bs (weights bs) = bs.prod := by
  induction bs with
  | nil => rfl
  | cons b bs ih =>
    obtain ⟨hb, hbs⟩ := List.forall_mem_cons.mp h
    rw [weights, greatest_cons, Nat.mul_one, greatest_map_mul, List.prod_cons, ← ih hbs,
      Nat.mul_add, Nat.mul_one]
    omega

theorem greatest_reverse (hws : ws.length = bs.length) :
    greatest bs.reverse ws.reverse = greatest bs ws := by
  rw [greatest, List.map_reverse, dot_reverse (by rw [List.length_map, hws]), greatest]

theorem one_add_greatest_topWeights (h : ∀ b ∈ bs, 0 < b) :
    1 + greatest bs (topWeights bs) = bs.prod := by
  have hpos : ∀ b ∈ bs.reverse, 0 < b := fun b hb => h b (List.mem_reverse.mp hb)
  have hreverse := one_add_greatest_weights hpos
  have hlength : (weights bs.reverse).reverse.length = bs.length := by
    rw [List.length_reverse, length_weights, List.length_reverse]
  rw [topWeights_eq_reverse, ← greatest_reverse hlength, List.reverse_reverse, hreverse,
    List.prod_reverse]

theorem not_inRange_of_zero (h : 0 ∈ bs) : ¬ InRange ds bs := by
  intro hin
  induction hin with
  | nil => exact List.not_mem_nil h
  | cons hd _ ih =>
    rcases List.mem_cons.mp h with rfl | h'
    · exact Nat.not_lt_zero _ hd
    · exact ih h'

/-! ## Different digits name different numbers -/

/-- A radix with its weight, and two digits below it. -/
structure DigitPair where
  digit : ℕ
  digit' : ℕ
  radix : ℕ
  weight : ℕ
  lt : digit < radix
  lt' : digit' < radix

namespace DigitPair

/-- The number of the first digits. -/
def value (L : List DigitPair) : ℕ := (L.map fun q => q.digit * q.weight).sum

def value' (L : List DigitPair) : ℕ := (L.map fun q => q.digit' * q.weight).sum

def dim (q : DigitPair) : ℕ × ℕ := (q.radix, q.weight)

/-- From the lowest weight on, what is below a weight and a multiple of it
determine each other. -/
theorem digits_eq {L : List DigitPair} {low low' : ℕ}
    (hchain : (L.map dim).IsChain fun d d' => d.2 * d.1 ≤ d'.2)
    (hlow : ∀ q ∈ L.head?, low < q.weight ∧ low' < q.weight)
    (h : low + value L = low' + value' L) :
    low = low' ∧ ∀ q ∈ L, q.digit = q.digit' := by
  induction L generalizing low low' with
  | nil => exact ⟨h, fun q hq => absurd hq List.not_mem_nil⟩
  | cons q L ih =>
    obtain ⟨hlt, hlt'⟩ := hlow q rfl
    obtain ⟨hhead, htail⟩ := List.isChain_cons.mp hchain
    have hnext {d l : ℕ} (hd : d < q.radix) (hl : l < q.weight) :
        ∀ p ∈ L.head?, l + d * q.weight < p.weight := by
      intro p hp
      have hstep : q.weight * q.radix ≤ p.weight := by
        apply hhead p.dim
        rw [List.head?_map, Option.mem_def.mp hp]
        rfl
      calc l + d * q.weight < q.weight + d * q.weight := Nat.add_lt_add_right hl _
        _ = q.weight * (d + 1) := by rw [Nat.mul_add, Nat.mul_one, Nat.mul_comm, Nat.add_comm]
        _ ≤ q.weight * q.radix := Nat.mul_le_mul_left _ hd
        _ ≤ p.weight := hstep
    have hsum : low + q.digit * q.weight + value L = low' + q.digit' * q.weight + value' L := by
      rw [Nat.add_assoc, Nat.add_assoc]
      exact h
    obtain ⟨hword, hrest⟩ :=
      ih htail (fun p hp => ⟨hnext q.lt hlt p hp, hnext q.lt' hlt' p hp⟩) hsum
    have hmod := congrArg (· % q.weight) hword
    simp only [Nat.add_mul_mod_self_right, Nat.mod_eq_of_lt hlt, Nat.mod_eq_of_lt hlt'] at hmod
    rw [hmod] at hword
    have hdigit : q.digit = q.digit' :=
      Nat.eq_of_mul_eq_mul_right (Nat.zero_lt_of_lt hlt) (Nat.add_left_cancel hword)
    exact ⟨hmod, List.forall_mem_cons.mpr ⟨hdigit, hrest⟩⟩

theorem exists_list (h : InRange ds bs) (h' : InRange ds' bs) (hws : ws.length = bs.length) :
    ∃ L : List DigitPair, L.map digit = ds ∧ L.map digit' = ds' ∧
      L.map dim = bs.zip ws ∧ value L = dot ds ws ∧ value' L = dot ds' ws := by
  induction h generalizing ds' ws with
  | nil =>
    rw [List.forall₂_nil_right_iff.mp h']
    exact ⟨[], rfl, rfl, rfl, rfl, rfl⟩
  | @cons d b ds bs hd _ ih =>
    obtain ⟨d', ds', hd', hds', rfl⟩ := List.forall₂_cons_right_iff.mp h'
    obtain ⟨w, ws, rfl⟩ := List.exists_cons_of_length_eq_add_one hws
    obtain ⟨L, hdigit, hdigit', hdim, hvalue, hvalue'⟩ := ih hds' (Nat.succ.inj hws)
    refine ⟨⟨d, d', b, w, hd, hd'⟩ :: L, ?_, ?_, ?_, ?_, ?_⟩
    · rw [List.map_cons, hdigit]
    · rw [List.map_cons, hdigit']
    · rw [List.map_cons, hdim]
      rfl
    · rw [dot_cons, ← hvalue]
      rfl
    · rw [dot_cons, ← hvalue']
      rfl

end DigitPair

/-- An order of images is an order of the list. -/
theorem exists_perm_map {α β : Type} {f : α → β} {l : List α} {order : List β}
    (h : order.Perm (l.map f)) : ∃ m : List α, m.Perm l ∧ m.map f = order := by
  have himage : List.Forall₂ (fun b a => b = f a) (l.map f) l := by
    rw [List.forall₂_map_left_iff, List.forall₂_same]
    exact fun _ _ => rfl
  obtain ⟨m, hm, hperm⟩ := List.perm_comp_forall₂ h himage
  refine ⟨m, hperm, ?_⟩
  have heq : List.Forall₂ (· = ·) order (m.map f) := List.forall₂_map_right_iff.mpr hm
  exact (List.forall₂_eq_eq_eq ▸ heq).symm

theorem dot_injOn (hnested : Nested bs ws) (hpos : ∀ w ∈ ws, 0 < w)
    (hws : ws.length = bs.length) :
    Set.InjOn (fun ds => dot ds ws) {ds | InRange ds bs} := by
  intro ds h ds' h' heq
  obtain ⟨L, rfl, rfl, hdim, hvalue, hvalue'⟩ := DigitPair.exists_list h h' hws
  obtain ⟨order, hperm, hchain⟩ := hnested
  rw [← hdim] at hperm
  obtain ⟨M, hM, rfl⟩ := exists_perm_map hperm
  have hsame : 0 + DigitPair.value M = 0 + DigitPair.value' M := by
    have hM_value : DigitPair.value M = DigitPair.value L := (hM.map _).sum_eq
    have hM_value' : DigitPair.value' M = DigitPair.value' L := (hM.map _).sum_eq
    rw [hM_value, hM_value', hvalue, hvalue']
    exact congrArg _ heq
  have hweight : ∀ q ∈ M, 0 < q.weight := by
    intro q hq
    have hmem : q.dim ∈ bs.zip ws := hdim ▸ List.mem_map_of_mem (hM.mem_iff.mp hq)
    exact hpos _ (List.of_mem_zip hmem).2
  obtain ⟨-, hdigits⟩ := DigitPair.digits_eq hchain
    (fun q hq => ⟨hweight q (List.mem_of_mem_head? hq), hweight q (List.mem_of_mem_head? hq)⟩)
    hsame
  exact List.map_congr_left fun q hq => hdigits q (hM.mem_iff.mpr hq)

/-! ## How many numbers there are -/

theorem ncard_inRange (bs : List ℕ) : {ds | InRange ds bs}.ncard = bs.prod := by
  rw [(bijOn_weights bs).ncard_eq, Set.ncard_Iio_nat]

theorem dot_image_subset (bs ws : List ℕ) :
    (fun ds => dot ds ws) '' {ds | InRange ds bs} ⊆ Set.Iio (1 + greatest bs ws) := by
  rintro _ ⟨ds, hds, rfl⟩
  exact Nat.lt_one_add_iff.mpr (dot_le_greatest hds ws)

theorem ncard_dot_image (hnested : Nested bs ws) (hpos : ∀ w ∈ ws, 0 < w)
    (hws : ws.length = bs.length) :
    ((fun ds => dot ds ws) '' {ds | InRange ds bs}).ncard = bs.prod := by
  rw [(dot_injOn hnested hpos hws).bijOn_image.ncard_eq.symm, ncard_inRange]

/-- There are no more numbers than up to the greatest. -/
theorem prod_le_greatest (hnested : Nested bs ws) (hpos : ∀ w ∈ ws, 0 < w)
    (hws : ws.length = bs.length) : bs.prod ≤ 1 + greatest bs ws := by
  have hle := Set.ncard_le_ncard (dot_image_subset bs ws) (Set.finite_Iio _)
  rwa [ncard_dot_image hnested hpos hws, Set.ncard_Iio_nat] at hle

/-- All numbers up to the greatest are named exactly if they are as many. -/
theorem dot_image_eq_iff (hnested : Nested bs ws) (hpos : ∀ w ∈ ws, 0 < w)
    (hws : ws.length = bs.length) :
    (fun ds => dot ds ws) '' {ds | InRange ds bs} = Set.Iio (1 + greatest bs ws) ↔
      bs.prod = 1 + greatest bs ws := by
  rw [← ncard_dot_image hnested hpos hws]
  constructor
  · intro himage
    rw [himage, Set.ncard_Iio_nat]
  · intro hcount
    apply Set.eq_of_subset_of_ncard_le (dot_image_subset bs ws)
    rw [hcount, Set.ncard_Iio_nat]

end Libhipcxx.MixedRadix
