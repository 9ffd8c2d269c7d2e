import Libhipcxx.Barrier.Phased
import Mathlib.Algebra.BigOperators.Group.Finset.Basic
import Mathlib.Algebra.BigOperators.Ring.Finset
import Mathlib.Data.Fintype.Basic

/-!
# Arriving as a warp

Where there are no barriers in hardware, the lanes of a warp that arrive at a
barrier of the block together elect a leader, which arrives for all of them: a
group is the active lanes with the same update and the same barrier, and its
leader the lowest of them.  The token of the leader is handed to the group.

The intrinsics are functions of the values that the active lanes pass to them.
-/

namespace Libhipcxx.Barrier.Warp

/-- `%laneid`. -/
abbrev Lane := Fin 32

/-- An `unsigned int` as a set of lanes. -/
abbrev Mask := Finset Lane

/-- `__match_any_sync`: the lanes of `mask` with the value of this lane. -/
def matchAnySync {α : Type} [DecidableEq α] (mask : Mask) (value : Lane → α) (lane : Lane) :
    Mask :=
  mask.filter fun k => value k = value lane

/-- `__popc`. -/
def popc (m : Mask) : ℕ := m.card

/-- `__ffs`: the position of the lowest bit, counted from 1, or 0. -/
def ffs (m : Mask) : ℕ :=
  match (List.finRange 32).find? (· ∈ m) with
  | some k => k + 1
  | none => 0

/-- What the lanes have when they call `arrive`: `__activemask`, `__update` and
the address of the barrier. -/
structure Call (β : Type) where
  mask : Mask
  update : Lane → ℤ
  barrier : Lane → β

variable {β τ : Type} [DecidableEq β]

namespace Call

/-- `__active`. -/
def active (c : Call β) (lane : Lane) : Mask :=
  matchAnySync c.mask c.update lane ∩ matchAnySync c.mask c.barrier lane

/-- `__inc`, which is converted to `int`. -/
def inc (c : Call β) (lane : Lane) : ℤ :=
  (BitVec.ofInt 32 (popc (c.active lane) * c.update lane)).toInt

/-- `__leader`. -/
def leader (c : Call β) (lane : Lane) : ℤ := (ffs (c.active lane) : ℤ) - 1

/-- The updates with which the lanes call `__barrier.arrive` of a barrier. -/
def arrivals (c : Call β) (b : β) : List ℤ :=
  ((List.finRange 32).filter fun lane =>
    lane ∈ c.mask ∧ c.leader lane = (lane : ℕ) ∧ c.barrier lane = b).map c.inc

/-- The updates with which the lanes call `arrive` of a barrier. -/
def updates (c : Call β) (b : β) : List ℤ :=
  ((List.finRange 32).filter fun lane => lane ∈ c.mask ∧ c.barrier lane = b).map c.update

/-- The token of a lane, by `__shfl_sync`, where `arrive` returned `reply` to the
leaders. -/
def token (c : Call β) (reply : Lane → Option τ) (lane : Lane) : Option τ :=
  if h : 0 ≤ c.leader lane ∧ c.leader lane < 32 then
    reply ⟨(c.leader lane).toNat, by omega⟩
  else none

variable {c : Call β} {k lane : Lane}

theorem mem_active :
    k ∈ c.active lane ↔ k ∈ c.mask ∧ c.update k = c.update lane ∧ c.barrier k = c.barrier lane := by
  simp only [active, matchAnySync, Finset.mem_inter, Finset.mem_filter]
  tauto

/-- Lanes of one group see the same group. -/
theorem active_eq (h : k ∈ c.active lane) : c.active k = c.active lane := by
  obtain ⟨-, hupdate, hbarrier⟩ := mem_active.mp h
  ext j
  rw [mem_active, mem_active, hupdate, hbarrier]

theorem mem_active_self (h : lane ∈ c.mask) : lane ∈ c.active lane :=
  mem_active.mpr ⟨h, rfl, rfl⟩

/-- The lowest lane of a group. -/
def lowest (c : Call β) (lane : Lane) : Lane :=
  ((List.finRange 32).find? (· ∈ c.active lane)).getD 0

theorem lowest_spec (h : lane ∈ c.mask) :
    c.lowest lane ∈ c.active lane ∧ c.leader lane = (c.lowest lane : ℕ) := by
  cases hfind : (List.finRange 32).find? (· ∈ c.active lane) with
  | none =>
      rw [List.find?_eq_none] at hfind
      have hnot := hfind lane (List.mem_finRange lane)
      exact absurd (decide_eq_true (mem_active_self h)) hnot
  | some g =>
      have hg := List.find?_some hfind
      rw [lowest, leader, ffs, hfind]
      refine ⟨by simpa using hg, ?_⟩
      push_cast
      exact add_sub_cancel_right _ _

/-- A lane and its leader have the same leader. -/
theorem lowest_eq (h : k ∈ c.active lane) : c.lowest k = c.lowest lane := by
  rw [lowest, lowest, active_eq h]

/-- The lanes that a leader arrives for. -/
theorem lowest_eq_iff {g : Lane} (hlane : lane ∈ c.mask) (hg : c.lowest g = g) :
    c.lowest lane = g ↔ lane ∈ c.active g := by
  constructor
  · rintro rfl
    have hmem := (lowest_spec hlane).1
    rw [active_eq hmem]
    exact mem_active_self hlane
  · intro hmem
    rw [lowest_eq hmem, hg]

theorem leader_eq_iff (h : lane ∈ c.mask) : c.leader lane = (lane : ℕ) ↔ c.lowest lane = lane := by
  rw [(lowest_spec h).2, Fin.ext_iff]
  exact Int.ofNat_inj

/-! ## The sum of the arrivals -/

theorem sum_filter (P : Lane → Prop) [DecidablePred P] (f : Lane → ℤ) :
    (((List.finRange 32).filter fun lane => P lane).map f).sum = ∑ lane with P lane, f lane := by
  have hnodup : ((List.finRange 32).filter fun lane => P lane).Nodup :=
    (List.nodup_finRange 32).filter _
  rw [← List.sum_toFinset f hnodup]
  congr 1
  ext lane
  simp

/-- The sums fit into an `int`. -/
def Fits (c : Call β) : Prop :=
  ∀ lane ∈ c.mask, 0 ≤ c.update lane ∧ popc (c.active lane) * c.update lane < 2 ^ 31

instance (c : Call β) : Decidable c.Fits :=
  inferInstanceAs (Decidable (∀ lane ∈ c.mask, _ ∧ _))

theorem inc_eq (h : c.Fits) (hlane : lane ∈ c.mask) :
    c.inc lane = popc (c.active lane) * c.update lane := by
  obtain ⟨hpos, hlt⟩ := h lane hlane
  have hnonneg : 0 ≤ (popc (c.active lane) : ℤ) * c.update lane :=
    Int.mul_nonneg (Int.natCast_nonneg _) hpos
  rw [inc, BitVec.toInt_ofInt]
  exact Int.bmod_eq_of_le_mul_two (by omega) (by omega)

/-- What the lanes of a group would have added one by one. -/
theorem sum_group {g : Lane} (h : c.Fits) (hg : g ∈ c.mask) :
    ∑ lane ∈ c.active g, c.update lane = c.inc g := by
  have hsame : ∀ lane ∈ c.active g, c.update lane = c.update g :=
    fun lane hlane => (mem_active.mp hlane).2.1
  rw [Finset.sum_congr rfl hsame, Finset.sum_const, inc_eq h hg, popc, nsmul_eq_mul]

/-- The leaders add what the lanes would have added. -/
theorem arrivals_sum (h : c.Fits) (b : β) : (c.arrivals b).sum = (c.updates b).sum := by
  rw [arrivals, updates, sum_filter, sum_filter]
  have hmaps : ∀ lane ∈ (Finset.univ.filter fun lane => lane ∈ c.mask ∧ c.barrier lane = b),
      c.lowest lane ∈ Finset.univ.filter fun lane =>
        lane ∈ c.mask ∧ c.leader lane = (lane : ℕ) ∧ c.barrier lane = b := by
    intro lane hlane
    obtain ⟨hmask, hbarrier⟩ := (Finset.mem_filter.mp hlane).2
    obtain ⟨hmem, -⟩ := lowest_spec hmask
    obtain ⟨hlow, -, hsame⟩ := mem_active.mp hmem
    refine Finset.mem_filter.mpr ⟨Finset.mem_univ _, hlow, ?_, hsame.trans hbarrier⟩
    exact (leader_eq_iff hlow).mpr (lowest_eq hmem)
  rw [← Finset.sum_fiberwise_of_maps_to hmaps]
  refine Finset.sum_congr rfl fun g hg => ?_
  obtain ⟨hmask, hleader, hbarrier⟩ := (Finset.mem_filter.mp hg).2
  have hfiber : (Finset.univ.filter fun lane => lane ∈ c.mask ∧ c.barrier lane = b).filter
      (fun lane => c.lowest lane = g) = c.active g := by
    ext lane
    rw [Finset.mem_filter, Finset.mem_filter]
    constructor
    · rintro ⟨⟨-, hlane, -⟩, hlow⟩
      exact (lowest_eq_iff hlane ((leader_eq_iff hmask).mp hleader)).mp hlow
    · intro hmem
      obtain ⟨hlane, -, hsame⟩ := mem_active.mp hmem
      refine ⟨⟨Finset.mem_univ _, hlane, hsame.trans hbarrier⟩, ?_⟩
      exact (lowest_eq_iff hlane ((leader_eq_iff hmask).mp hleader)).mpr hmem
  rw [hfiber, sum_group h hmask]

/-! ## What the barrier sees -/

theorem inc_nonneg (h : c.Fits) (hlane : lane ∈ c.mask) : 0 ≤ c.inc lane := by
  rw [inc_eq h hlane]
  exact Int.mul_nonneg (Int.natCast_nonneg _) (h lane hlane).1

theorem mem_arrivals_lanes {b : β} (hlane : lane ∈ c.mask) (hb : c.barrier lane = b) :
    c.lowest lane ∈ (List.finRange 32).filter fun lane =>
      lane ∈ c.mask ∧ c.leader lane = (lane : ℕ) ∧ c.barrier lane = b := by
  obtain ⟨hmem, -⟩ := lowest_spec hlane
  obtain ⟨hlow, -, hsame⟩ := mem_active.mp hmem
  rw [List.mem_filter, decide_eq_true_iff]
  exact ⟨List.mem_finRange _, hlow, (leader_eq_iff hlow).mpr (lowest_eq hmem), hsame.trans hb⟩

/-- A leader arrives at a barrier if and only if a lane does. -/
theorem arrivals_eq_nil_iff (b : β) : c.arrivals b = [] ↔ c.updates b = [] := by
  rw [arrivals, updates, List.map_eq_nil_iff, List.map_eq_nil_iff, List.filter_eq_nil_iff,
    List.filter_eq_nil_iff]
  constructor
  · intro hnone lane _ hlane
    obtain ⟨hmask, hb⟩ := of_decide_eq_true hlane
    have hmem := List.mem_filter.mp (mem_arrivals_lanes hmask hb)
    exact hnone _ hmem.1 hmem.2
  · intro hnone lane hall hlane
    obtain ⟨hmask, -, hb⟩ := of_decide_eq_true hlane
    exact hnone lane hall (decide_eq_true ⟨hmask, hb⟩)

theorem sum_toNat {us : List ℤ} (h : ∀ u ∈ us, 0 ≤ u) :
    ((us.map Int.toNat).sum : ℤ) = us.sum := by
  induction us with
  | nil => rfl
  | cons u us ih =>
      have hu := h u List.mem_cons_self
      have hus := ih fun v hv => h v (List.mem_cons_of_mem u hv)
      rw [List.map_cons, List.sum_cons, List.sum_cons, Int.natCast_add, hus,
        Int.toNat_of_nonneg hu]

theorem arrivals_nonneg (h : c.Fits) (b : β) : ∀ u ∈ c.arrivals b, 0 ≤ u := by
  intro u hu
  obtain ⟨lane, hlane, rfl⟩ := List.mem_map.mp hu
  exact inc_nonneg h (of_decide_eq_true (List.mem_filter.mp hlane).2).1

theorem updates_nonneg (h : c.Fits) (b : β) : ∀ u ∈ c.updates b, 0 ≤ u := by
  intro u hu
  obtain ⟨lane, hlane, rfl⟩ := List.mem_map.mp hu
  exact (h lane (of_decide_eq_true (List.mem_filter.mp hlane).2).1).1

theorem token_eq {reply : Lane → Option τ} (hlane : lane ∈ c.mask) :
    c.token reply lane = reply (c.lowest lane) := by
  have hleader := (lowest_spec hlane).2
  have hlt := (c.lowest lane).isLt
  rw [token, dif_pos ⟨by omega, by omega⟩]
  congr 1
  apply Fin.ext
  simp only [hleader, Int.toNat_natCast]

end Call

open Call

variable {ι : Type} [DecidableEq ι]

/-- The arrivals of the leaders are, for each barrier, those of the lanes: they
can be made in the same states, and lead to the same ones.  Each lane gets the
token of an arrival at its own barrier, which counted it. -/
theorem warp_arrive (c : Call β) (h : c.Fits) :
    (∀ (b : β) (n : ℕ) (s s' : Phased.State ι),
      Phased.Run n s (((c.arrivals b).map Int.toNat).map .arrive) s' ↔
        Phased.Run n s (((c.updates b).map Int.toNat).map .arrive) s') ∧
    ∀ (reply : Lane → Option τ), ∀ lane ∈ c.mask, ∃ g ∈ c.mask, c.leader g = (g : ℕ) ∧
      c.barrier g = c.barrier lane ∧ lane ∈ c.active g ∧ c.token reply lane = reply g := by
  constructor
  · intro b n s s'
    have hsum : ((c.arrivals b).map Int.toNat).sum = ((c.updates b).map Int.toNat).sum := by
      apply Int.ofNat_inj.mp
      rw [sum_toNat (arrivals_nonneg h b), sum_toNat (updates_nonneg h b), arrivals_sum h b]
    rw [Phased.run_arrives_iff, Phased.run_arrives_iff, hsum, List.map_eq_nil_iff,
      List.map_eq_nil_iff, arrivals_eq_nil_iff]
  · intro reply lane hlane
    obtain ⟨hmem, -⟩ := lowest_spec hlane
    obtain ⟨hlow, -, hsame⟩ := mem_active.mp hmem
    refine ⟨c.lowest lane, hlow, (leader_eq_iff hlow).mpr (lowest_eq hmem), hsame, ?_,
      token_eq hlane⟩
    rw [active_eq hmem]
    exact mem_active_self hlane

/-- Lanes 1 to 4 arrive at two barriers with two different updates: lanes 1 and 3
share an arrival, and lane 4 has one of its own at the same barrier. -/
theorem warp_arrive_four :
    let c : Call Bool :=
      ⟨{1, 2, 3, 4}, fun lane => if lane = 4 then 5 else 1, fun lane => lane = 2⟩
    c.arrivals false = [2, 5] ∧ c.updates false = [1, 1, 5] ∧
      ∃ s : Phased.State (Fin 1),
        Phased.Run 7 (Phased.start (Fin 1) 7) [.arrive 1, .arrive 1, .arrive 5] s := by
  intro c
  have harrivals : c.arrivals false = [2, 5] := by decide
  have hupdates : c.updates false = [1, 1, 5] := by decide
  refine ⟨harrivals, hupdates, (Phased.start (Fin 1) 7).arrive 7, ?_⟩
  have hiff := (warp_arrive (τ := Unit) (ι := Fin 1) c (by decide)).1 false 7
    (Phased.start (Fin 1) 7) ((Phased.start (Fin 1) 7).arrive 7)
  rw [harrivals, hupdates] at hiff
  exact hiff.mp ((Phased.run_arrives_iff [2, 5]).mpr ⟨rfl, Or.inr (by decide)⟩)

end Libhipcxx.Barrier.Warp
