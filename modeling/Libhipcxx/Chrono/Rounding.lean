import Libhipcxx.Chrono.DurationCast

/-!
# floor, ceil and round

A cast truncates, and `floor` and `ceil` correct it by one where a comparison
with the argument asks for it.  `round` compares the distances to the floor and
to the duration after it; both are counted in the common type.
-/

namespace Libhipcxx.Chrono

open Rational Rounding

variable {T U : DurationType}

def floor (U : DurationType) (d : Duration T) :
    Except Failure (Option (Duration U)) :=
  andThen (castTo U d) fun t =>
    andThen (gt t d) fun above =>
      if above then assignTo U (sub t (Duration.ofNumber U 1)) else .ok (some t)

def ceil (U : DurationType) (d : Duration T) :
    Except Failure (Option (Duration U)) :=
  andThen (castTo U d) fun t =>
    andThen (lt t d) fun below =>
      if below then assignTo U (add t (Duration.ofNumber U 1)) else .ok (some t)

def round (U : DurationType) (d : Duration T) :
    Except Failure (Option (Duration U)) :=
  andThen (floor U d) fun lower =>
    andThen (assignTo U (add lower (Duration.ofNumber U 1))) fun upper =>
      andThen (sub d lower) fun ⟨_, lowerDiff⟩ =>
        andThen (sub upper d) fun ⟨_, upperDiff⟩ =>
          andThen (lt lowerDiff upperDiff) fun below =>
            if below then .ok (some lower)
            else andThen (gt lowerDiff upperDiff) fun above =>
              if above then .ok (some upper)
              else if lower.count % 2 = 1 then .ok (some upper)
              else .ok (some lower)

/-! ## No conversion overflows -/

/-- What `floor` computes is in range. -/
structure FloorFits (U : DurationType) (d : Duration T) : Prop where
  cast : CastFits U d
  comparable (t : Duration U) : castTo U d = .ok (some t) → Comparable t d
  step (t : Duration U) :
    castTo U d = .ok (some t) → d.time < t.time → U.rep.Fits (t.count - 1)

structure CeilFits (U : DurationType) (d : Duration T) : Prop where
  cast : CastFits U d
  comparable (t : Duration U) : castTo U d = .ok (some t) → Comparable t d
  step (t : Duration U) :
    castTo U d = .ok (some t) → t.time < d.time → U.rep.Fits (t.count + 1)

structure RoundFits (U : DurationType) (d : Duration T) : Prop extends
    FloorFits U d where
  upper (lower : Duration U) :
    floor U d = .ok (some lower) → U.rep.Fits (lower.count + 1)
  lowerDiff (lower : Duration U) :
    floor U d = .ok (some lower) →
      Comparable d lower ∧ Expressible T U (d.time - lower.time)
  upperDiff (lower upper : Duration U) :
    floor U d = .ok (some lower) → upper.count = lower.count + 1 →
      Comparable upper d ∧ Expressible U T (upper.time - d.time)

/-! ## One more or less -/

theorem count_one (U : DurationType) : (Duration.ofNumber U 1).count = 1 :=
  IntegerType.convert_of_fits U.rep.type.fits_one

theorem time_one (U : DurationType) : (Duration.ofNumber U 1).time = U.unit := by
  rw [Duration.time, count_one, Int.cast_one, one_mul]

/-- Two durations of one type can be compared. -/
theorem comparable_same (t t' : Duration U) : Comparable t t' :=
  ⟨compiles_self U, (comparable_self t).left, (comparable_self t').right⟩

theorem expressible_time (t : Duration U) : Expressible U U t.time :=
  (comparable_self t).left

theorem assignTo_sub_one {t : Duration U} (h : U.rep.Fits (t.count - 1)) :
    assignTo U (sub t (Duration.ofNumber U 1)) = .ok (some ⟨t.count - 1, h⟩) := by
  have htime : t.time - (Duration.ofNumber U 1).time =
      (⟨t.count - 1, h⟩ : Duration U).time := by
    rw [time_one, Duration.time, Duration.time, Int.cast_sub, Int.cast_one, sub_mul,
      one_mul]
  apply assignTo_combine
  rw [← htime]
  apply sub_spec (comparable_same _ _)
  rw [htime]
  exact expressible_time _

theorem assignTo_add_one {t : Duration U} (h : U.rep.Fits (t.count + 1)) :
    assignTo U (add t (Duration.ofNumber U 1)) = .ok (some ⟨t.count + 1, h⟩) := by
  have htime : t.time + (Duration.ofNumber U 1).time =
      (⟨t.count + 1, h⟩ : Duration U).time := by
    rw [time_one, Duration.time, Duration.time, Int.cast_add, Int.cast_one, add_mul,
      one_mul]
  apply assignTo_combine
  rw [← htime]
  apply add_spec (comparable_same _ _)
  rw [htime]
  exact expressible_time _

/-! ## floor and ceil -/

theorem floor_spec {d : Duration T} (h : FloorFits U d) :
    ∃ t : Duration U, floor U d = .ok (some t) ∧ t.count = ⌊d.time / U.unit⌋ := by
  obtain ⟨t, ht, htruncate⟩ := castTo_spec h.cast
  have hfloor := floor_eq_truncate (d.time / U.unit)
  rw [← htruncate] at hfloor
  rw [floor, ht, andThen_some, gt_spec (h.comparable t ht), andThen_some]
  by_cases habove : d.time < t.time
  · have hstep := h.step t ht habove
    rw [if_pos (Duration.time_lt_iff.mp habove)] at hfloor
    refine ⟨⟨t.count - 1, hstep⟩, ?_, hfloor.symm⟩
    rw [if_pos (decide_eq_true habove), assignTo_sub_one hstep]
  · rw [if_neg (mt Duration.time_lt_iff.mpr habove)] at hfloor
    refine ⟨t, ?_, hfloor.symm⟩
    rw [if_neg (by simpa using habove)]

theorem ceil_spec {d : Duration T} (h : CeilFits U d) :
    ∃ t : Duration U, ceil U d = .ok (some t) ∧ t.count = ⌈d.time / U.unit⌉ := by
  obtain ⟨t, ht, htruncate⟩ := castTo_spec h.cast
  have hceil := ceil_eq_truncate (d.time / U.unit)
  rw [← htruncate] at hceil
  rw [ceil, ht, andThen_some, lt_spec (h.comparable t ht), andThen_some]
  by_cases hbelow : t.time < d.time
  · have hstep := h.step t ht hbelow
    rw [if_pos (Duration.lt_time_iff.mp hbelow)] at hceil
    refine ⟨⟨t.count + 1, hstep⟩, ?_, hceil.symm⟩
    rw [if_pos (decide_eq_true hbelow), assignTo_add_one hstep]
  · rw [if_neg (mt Duration.lt_time_iff.mpr hbelow)] at hceil
    refine ⟨t, ?_, hceil.symm⟩
    rw [if_neg (by simpa using hbelow)]

/-! ## round -/

/-- A difference of times, in periods of the type. -/
theorem sub_time_eq (d : Duration T) (t : Duration U) :
    d.time - t.time = (d.time / U.unit - t.count) * U.unit := by
  rw [sub_mul, div_mul_cancel₀ _ U.unit_pos.ne']
  rfl

theorem time_sub_eq (d : Duration T) (t : Duration U) :
    t.time - d.time = (t.count - d.time / U.unit) * U.unit := by
  rw [sub_mul, div_mul_cancel₀ _ U.unit_pos.ne']
  rfl

/-- The distances to the two candidates are compared. -/
theorem round_run {d : Duration T} {lower upper : Duration U}
    (hfloor : floor U d = .ok (some lower))
    (hadd : assignTo U (add lower (Duration.ofNumber U 1)) = .ok (some upper))
    (hlower : Comparable d lower ∧ Expressible T U (d.time - lower.time))
    (hupper : Comparable upper d ∧ Expressible U T (upper.time - d.time)) :
    round U d = .ok (some (
      if d.time - lower.time < upper.time - d.time then lower
      else if upper.time - d.time < d.time - lower.time then upper
      else if lower.count % 2 = 1 then upper else lower)) := by
  obtain ⟨C, lowerDiff, hlowerRun, hlowerTime⟩ := sub_spec hlower.1 hlower.2
  obtain ⟨C', upperDiff, hupperRun, hupperTime⟩ := sub_spec hupper.1 hupper.2
  have hC := (combine_commonType hlowerRun).1
  rw [commonType_comm] at hC
  obtain rfl : C = C' := Except.ok.inj (hC.symm.trans (combine_commonType hupperRun).1)
  have hcomparable := comparable_same lowerDiff upperDiff
  rw [round, hfloor, andThen_some, hadd, andThen_some, hlowerRun, andThen_some]
  change andThen (sub upper d) _ = _
  rw [hupperRun, andThen_some]
  change andThen (lt lowerDiff upperDiff) _ = _
  rw [lt_spec hcomparable, andThen_some, gt_spec hcomparable, hlowerTime, hupperTime]
  simp only [decide_eq_true_eq, andThen_some]
  split
  · rfl
  · split
    · rfl
    · split <;> rfl

theorem round_spec {d : Duration T} (h : RoundFits U d) :
    ∃ t : Duration U, round U d = .ok (some t) ∧
      IsNearest (d.time / U.unit) t.count := by
  obtain ⟨lower, hfloor, hcount⟩ := floor_spec h.toFloorFits
  obtain ⟨upper, hadd, hnext⟩ : ∃ upper : Duration U,
      assignTo U (add lower (Duration.ofNumber U 1)) = .ok (some upper) ∧
        upper.count = lower.count + 1 :=
    ⟨_, assignTo_add_one (h.upper lower hfloor), rfl⟩
  have hrun := round_run hfloor hadd (h.lowerDiff lower hfloor)
    (h.upperDiff lower upper hfloor hnext)
  rw [hcount] at hnext
  have hlower := sub_time_eq d lower
  have hupper := time_sub_eq d upper
  rw [hcount] at hlower
  rw [hnext, Int.cast_add, Int.cast_one] at hupper
  rw [hlower, hupper, hcount] at hrun
  rcases lt_trichotomy (d.time / U.unit - ⌊d.time / U.unit⌋)
    (⌊d.time / U.unit⌋ + 1 - d.time / U.unit) with hlt | hhalf | hgt
  · rw [if_pos (mul_lt_mul_of_pos_right hlt U.unit_pos)] at hrun
    exact ⟨lower, hrun, hcount ▸ isNearest_floor hlt⟩
  · rw [hhalf, if_neg (lt_irrefl _), if_neg (lt_irrefl _)] at hrun
    have hnearest := isNearest_half hhalf
    by_cases hodd : Odd ⌊d.time / U.unit⌋
    · rw [if_pos hodd] at hnearest
      rw [if_pos (Int.odd_iff.mp hodd)] at hrun
      exact ⟨upper, hrun, hnext ▸ hnearest⟩
    · rw [if_neg hodd] at hnearest
      rw [if_neg (mt Int.odd_iff.mpr hodd)] at hrun
      exact ⟨lower, hrun, hcount ▸ hnearest⟩
  · have hlt := mul_lt_mul_of_pos_right hgt U.unit_pos
    rw [if_neg hlt.not_gt, if_pos hlt] at hrun
    exact ⟨upper, hrun, hnext ▸ isNearest_floor_add_one hgt⟩

/-! ## Rounding of times -/

theorem abs_sub_time_eq (d : Duration T) (t : Duration U) :
    |d.time - t.time| = |d.time / U.unit - t.count| * U.unit := by
  rw [sub_time_eq, abs_mul, abs_of_pos U.unit_pos]

/-- Where no conversion overflows, `floor` is the greatest duration of the type
that is not after the argument, `ceil` the least one that is not before it, and
`round` one that is nearest to it, with an even count if another is as near. -/
theorem duration_rounding (U : DurationType) (d : Duration T) :
    (FloorFits U d → ∃ t, floor U d = .ok (some t) ∧ t.time ≤ d.time ∧
      ∀ t' : Duration U, t'.time ≤ d.time → t'.time ≤ t.time) ∧
    (CeilFits U d → ∃ t, ceil U d = .ok (some t) ∧ d.time ≤ t.time ∧
      ∀ t' : Duration U, d.time ≤ t'.time → t.time ≤ t'.time) ∧
    (RoundFits U d → ∃ t, round U d = .ok (some t) ∧
      ∀ t' : Duration U, |d.time - t.time| ≤ |d.time - t'.time| ∧
        (t' ≠ t → |d.time - t'.time| = |d.time - t.time| → Even t.count)) := by
  have hcounts (t t' : Duration U) (h : t.count ≤ t'.count) : t.time ≤ t'.time :=
    mul_le_mul_of_nonneg_right (Int.cast_le.mpr h) U.unit_pos.le
  refine ⟨?_, ?_, ?_⟩
  · intro h
    obtain ⟨t, ht, hcount⟩ := floor_spec h
    refine ⟨t, ht, ?_, ?_⟩
    · rw [Duration.le_time_iff, hcount]
      exact Int.floor_le _
    · intro t' ht'
      apply hcounts
      rw [hcount]
      exact Int.le_floor.mpr (Duration.le_time_iff.mp ht')
  · intro h
    obtain ⟨t, ht, hcount⟩ := ceil_spec h
    refine ⟨t, ht, ?_, ?_⟩
    · rw [Duration.time_le_iff, hcount]
      exact Int.le_ceil _
    · intro t' ht'
      apply hcounts
      rw [hcount]
      exact Int.ceil_le.mpr (Duration.time_le_iff.mp ht')
  · intro h
    obtain ⟨t, ht, hnearest, heven⟩ := round_spec h
    refine ⟨t, ht, ?_⟩
    intro t'
    rw [abs_sub_time_eq, abs_sub_time_eq, mul_le_mul_iff_left₀ U.unit_pos,
      mul_left_inj' U.unit_pos.ne']
    refine ⟨hnearest _, ?_⟩
    intro hne
    exact heven _ fun h => hne (Duration.ext h)

/-- Before zero a second and a half lies midway, and rounds down to the even
count. -/
theorem duration_rounding_tie :
    ∃ t : Duration seconds,
      round seconds (⟨-1500, by decide⟩ : Duration milliseconds) = .ok (some t) ∧
        |(-3 / 2 : ℚ) - t.time| = 1 / 2 ∧ t.count = -2 := by
  let d : Duration milliseconds := ⟨-1500, by decide⟩
  let lower : Duration seconds := ⟨-2, by decide⟩
  have hcompiles : Compiles seconds milliseconds :=
    ⟨⟨milliseconds,
      ⟨1000, 1, by decide, by decide, by decide, isCoprime_one_right⟩,
      ⟨1, 1, by decide, by decide, by decide, isCoprime_one_right⟩⟩,
      by decide +kernel⟩
  have hcast : castTo seconds d = .ok (some ⟨-1, by decide⟩) := by decide +kernel
  have hfloor : floor seconds d = .ok (some lower) := by decide +kernel
  have hround : round seconds d = .ok (some lower) := by decide +kernel
  have hd : Expressible seconds milliseconds d.time :=
    ⟨-1500, by decide, by decide +kernel⟩
  have hlower : Expressible seconds milliseconds lower.time :=
    ⟨-2000, by decide, by decide +kernel⟩
  have hfits : RoundFits seconds d := by
    refine ⟨⟨⟨⟨1, 1000, by decide, by decide, by decide, isCoprime_one_left⟩,
      by decide +kernel, by decide, by decide +kernel⟩, ?_, ?_⟩, ?_, ?_, ?_⟩
    · intro t ht
      obtain rfl := Option.some.inj (Except.ok.inj (hcast.symm.trans ht))
      exact ⟨hcompiles, ⟨-1000, by decide, by decide +kernel⟩, hd⟩
    · intro t ht _
      obtain rfl := Option.some.inj (Except.ok.inj (hcast.symm.trans ht))
      decide
    · intro t ht
      obtain rfl := Option.some.inj (Except.ok.inj (hfloor.symm.trans ht))
      decide
    · intro t ht
      obtain rfl := Option.some.inj (Except.ok.inj (hfloor.symm.trans ht))
      exact ⟨(Comparable.mk hcompiles hlower hd).symm,
        ⟨500, by decide, by decide +kernel⟩⟩
    · intro t upper ht hupper
      obtain rfl := Option.some.inj (Except.ok.inj (hfloor.symm.trans ht))
      obtain rfl : upper = ⟨-1, by decide⟩ := Duration.ext hupper
      exact ⟨⟨hcompiles, ⟨-1000, by decide, by decide +kernel⟩, hd⟩,
        ⟨500, by decide, by decide +kernel⟩⟩
  obtain ⟨t, ht, -⟩ := (duration_rounding seconds d).2.2 hfits
  obtain rfl := Option.some.inj (Except.ok.inj (hround.symm.trans ht))
  exact ⟨lower, ht, by decide +kernel, rfl⟩

end Libhipcxx.Chrono
