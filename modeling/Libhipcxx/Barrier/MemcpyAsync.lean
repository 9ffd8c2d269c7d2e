import Mathlib.Algebra.Group.Nat.Defs
import Mathlib.Data.Nat.Find
import Mathlib.Logic.Basic
import Mathlib.Tactic.ByContra

/-!
# Cooperative copies

`memcpy_async` on a group of threads.  Each thread copies every `size()`-th
chunk of `_Native_alignment` bytes, from the chunk of its rank on; a group of
one thread copies the range in one piece.  The last chunk is copied whole even
where the range ends inside it.
-/

namespace Libhipcxx.Barrier.MemcpyAsync

/-! ## The copies of one thread -/

/-- `std::size_t`. -/
abbrev Size := BitVec 64

/-- What one `memcpy` reads in the source and writes in the destination. -/
structure Chunk where
  offset : Size
  length : Size
  deriving DecidableEq

def Chunk.Touches (c : Chunk) (i : ℕ) : Prop :=
  c.offset.toNat ≤ i ∧ i < c.offset.toNat + c.length.toNat

instance (c : Chunk) (i : ℕ) : Decidable (c.Touches i) :=
  inferInstanceAs (Decidable (_ ∧ _))

/-- The destination after the `memcpy` of a chunk. -/
def Chunk.copy (source : ℕ → UInt8) (destination : ℕ → UInt8) (c : Chunk) :
    ℕ → UInt8 :=
  fun i => if c.Touches i then source i else destination i

/-- The loop of `__strided_memcpy`, whose condition is tested `fuel` times at
most. -/
def stridedLoop (alignment total stride : Size) : ℕ → Size → Option (List Chunk)
  | 0, _ => none
  | fuel + 1, offset =>
      if offset < total then
        (stridedLoop alignment total stride fuel (offset + stride * alignment)).map
          (⟨offset, alignment⟩ :: ·)
      else
        some []

/-- `__strided_memcpy`. -/
def stridedMemcpy (fuel : ℕ) (alignment total rank stride : Size) :
    Option (List Chunk) :=
  if stride = 1 then
    some [⟨0, total⟩]
  else
    stridedLoop alignment total stride fuel (rank * alignment)

/-- The overloads of `memcpy_async` for a group, with `alignof(_Tp)` and the
alignment of the `aligned_size_t` argument. -/
inductive Overload where
  | typed (alignof : Size)
  | typedAligned (alignof alignment : Size)
  | untyped
  | untypedAligned (alignment : Size)

/-- `_Native_alignment`. -/
def Overload.alignment : Overload → Size
  | typed alignof => alignof
  | typedAligned alignof alignment => if alignof > alignment then alignof else alignment
  | untyped => 1
  | untypedAligned alignment => alignment

/-- A group of threads, with ranks from zero up. -/
structure Group where
  size : Size
  size_pos : 0 < size := by decide

/-- `__single_thread_group`. -/
def singleThreadGroup : Group where
  size := 1

def Group.ranks (group : Group) : List Size :=
  (List.range group.size.toNat).map (BitVec.ofNat 64)

/-- `memcpy_async` on the thread of rank `rank`. -/
def memcpyAsync (overload : Overload) (total : Size) (group : Group) (fuel : ℕ)
    (rank : Size) : Option (List Chunk) :=
  stridedMemcpy fuel overload.alignment total rank group.size

/-! ## What the group is to do -/

/-- Every thread of the group has run its loop. -/
def Completes (overload : Overload) (total : Size) (group : Group)
    (copies : Size → List Chunk) : Prop :=
  ∀ rank < group.size,
    ∃ fuel, memcpyAsync overload total group fuel rank = some (copies rank)

/-- The thread of rank `rank` reads and writes byte `i`. -/
def Reaches (copies : Size → List Chunk) (rank : Size) (i : ℕ) : Prop :=
  ∃ c ∈ copies rank, c.Touches i

/-- The threads copy the range, the whole of it and nothing else. -/
structure Exact (total : Size) (group : Group) (copies : Size → List Chunk) :
    Prop where
  covered (i : ℕ) :
    (∃ rank < group.size, Reaches copies rank i) ↔ i < total.toNat
  once (i : ℕ) {rank rank' : Size} :
    rank < group.size → rank' < group.size →
      Reaches copies rank i → Reaches copies rank' i → rank = rank'
  stored (source destination : ℕ → UInt8) {order : List Chunk} :
    order.Perm (group.ranks.flatMap copies) →
      ∀ i, order.foldl (Chunk.copy source) destination i =
        if i < total.toNat then source i else destination i

def Copies (overload : Overload) (total : Size) (group : Group) : Prop :=
  ∃ copies, Completes overload total group copies ∧ Exact total group copies

/-- The chunks divide the range, and no thread's offset passes `2 ^ 64` on its
way out of it. -/
def Divides (alignment total : Size) (group : Group) : Prop :=
  alignment.toNat ∣ total.toNat ∧
    total.toNat + (group.size.toNat - 1) * alignment.toNat < 2 ^ 64

/-! ## What copies store -/

theorem foldl_copy (source destination : ℕ → UInt8) (order : List Chunk) (i : ℕ) :
    order.foldl (Chunk.copy source) destination i =
      if ∃ c ∈ order, c.Touches i then source i else destination i := by
  induction order generalizing destination with
  | nil => simp
  | cons c order ih =>
      rw [List.foldl_cons, ih]
      by_cases hrest : ∃ c ∈ order, c.Touches i
      · rw [if_pos hrest, if_pos]
        obtain ⟨c', hmem, htouch⟩ := hrest
        exact ⟨c', List.mem_cons_of_mem c hmem, htouch⟩
      · by_cases hc : c.Touches i
        · rw [if_neg hrest, if_pos ⟨c, List.mem_cons_self, hc⟩, Chunk.copy, if_pos hc]
        · rw [if_neg hrest, Chunk.copy, if_neg hc, if_neg]
          rintro ⟨c', hmem, htouch⟩
          rcases List.mem_cons.mp hmem with rfl | hmem
          · exact hc htouch
          · exact hrest ⟨c', hmem, htouch⟩

theorem mem_ranks {group : Group} {rank : Size} :
    rank ∈ group.ranks ↔ rank < group.size := by
  rw [Group.ranks, List.mem_map]
  constructor
  · rintro ⟨r, hr, rfl⟩
    have hlt := List.mem_range.mp hr
    rw [BitVec.lt_def, BitVec.toNat_ofNat, Nat.mod_eq_of_lt (by omega)]
    exact hlt
  · intro h
    exact ⟨rank.toNat, List.mem_range.mpr h, by simp⟩

/-- What the destination holds in the end does not depend on the order of the
copies. -/
theorem Exact.of_covered {total : Size} {group : Group} {copies : Size → List Chunk}
    (hcovered : ∀ i, (∃ rank < group.size, Reaches copies rank i) ↔ i < total.toNat)
    (honce : ∀ i {rank rank' : Size}, rank < group.size → rank' < group.size →
      Reaches copies rank i → Reaches copies rank' i → rank = rank') :
    Exact total group copies := by
  refine ⟨hcovered, honce, ?_⟩
  intro source destination order hperm i
  have htouched : (∃ c ∈ order, c.Touches i) ↔ i < total.toNat := by
    rw [← hcovered]
    constructor
    · rintro ⟨c, hmem, htouch⟩
      obtain ⟨rank, hrank, hc⟩ := List.mem_flatMap.mp (hperm.mem_iff.mp hmem)
      exact ⟨rank, mem_ranks.mp hrank, c, hc, htouch⟩
    · rintro ⟨rank, hrank, c, hc, htouch⟩
      refine ⟨c, hperm.mem_iff.mpr ?_, htouch⟩
      exact List.mem_flatMap.mpr ⟨rank, mem_ranks.mpr hrank, hc⟩
  rw [foldl_copy]
  exact if_congr htouched rfl rfl

/-! ## The offsets of a loop -/

/-- The offset of chunk number `j`. -/
def position (alignment : Size) (j : ℕ) : Size := BitVec.ofNat 64 (j * alignment.toNat)

def chunk (alignment : Size) (j : ℕ) : Chunk := ⟨position alignment j, alignment⟩

variable {alignment total stride : Size} {r m : ℕ}

theorem position_toNat (alignment : Size) (j : ℕ) :
    (position alignment j).toNat = j * alignment.toNat % 2 ^ 64 :=
  BitVec.toNat_ofNat _ _

theorem position_lt_iff {j : ℕ} :
    position alignment j < total ↔ j * alignment.toNat % 2 ^ 64 < total.toNat := by
  rw [BitVec.lt_def, position_toNat]

theorem position_lt_of_mul_lt {j : ℕ} (h : j * alignment.toNat < total.toNat) :
    position alignment j < total := by
  rw [position_lt_iff, Nat.mod_eq_of_lt (Nat.lt_trans h total.isLt)]
  exact h

theorem position_add (alignment : Size) (i j : ℕ) :
    position alignment (i + j) = position alignment i + position alignment j := by
  rw [position, Nat.add_mul, BitVec.ofNat_add]
  rfl

theorem position_add_stride (alignment stride : Size) (j : ℕ) :
    position alignment j + stride * alignment = position alignment (j + stride.toNat) := by
  apply BitVec.eq_of_toNat_eq
  rw [BitVec.toNat_add, BitVec.toNat_mul, position_toNat, position_toNat,
    ← Nat.add_mod, Nat.add_mul]

theorem rank_mul_alignment (alignment rank : Size) :
    rank * alignment = position alignment rank.toNat := by
  apply BitVec.eq_of_toNat_eq
  rw [BitVec.toNat_mul, position_toNat]

/-- The loop that starts at chunk `r` ends after `m` chunks. -/
def Ends (alignment total stride : Size) (r m : ℕ) : Prop :=
  (∀ k < m, position alignment (r + k * stride.toNat) < total) ∧
    ¬ position alignment (r + m * stride.toNat) < total

theorem ends_zero_iff :
    Ends alignment total stride r 0 ↔ ¬ position alignment r < total := by
  simp [Ends]

theorem ends_succ_iff :
    Ends alignment total stride r (m + 1) ↔
      position alignment r < total ∧
        Ends alignment total stride (r + stride.toNat) m := by
  have hshift (k : ℕ) : r + (k + 1) * stride.toNat = r + stride.toNat + k * stride.toNat := by
    rw [Nat.add_mul, Nat.one_mul]
    omega
  simp only [Ends, hshift]
  constructor
  · rintro ⟨hin, hout⟩
    refine ⟨by simpa using hin 0 (Nat.succ_pos m), ?_, hout⟩
    intro k hk
    rw [← hshift]
    exact hin (k + 1) (by omega)
  · rintro ⟨hfirst, hin, hout⟩
    refine ⟨?_, hout⟩
    intro k hk
    cases k with
    | zero => simpa using hfirst
    | succ k => rw [hshift]; exact hin k (by omega)

/-- A loop is over before it reaches a chunk that is not in the range. -/
theorem Ends.lt {k : ℕ} (h : Ends alignment total stride r m)
    (hin : ∀ k' ≤ k, position alignment (r + k' * stride.toNat) < total) : k < m := by
  by_contra hk
  exact h.2 (hin m (by omega))

theorem stridedLoop_eq_some_iff {fuel : ℕ} {cs : List Chunk} :
    stridedLoop alignment total stride fuel (position alignment r) = some cs ↔
      ∃ m < fuel, Ends alignment total stride r m ∧
        cs = (List.range m).map fun k => chunk alignment (r + k * stride.toNat) := by
  induction fuel generalizing r cs with
  | zero => simp [stridedLoop]
  | succ fuel ih =>
      rw [stridedLoop]
      by_cases hin : position alignment r < total
      · rw [if_pos hin, position_add_stride, Option.map_eq_some_iff]
        constructor
        · rintro ⟨tail, htail, rfl⟩
          obtain ⟨m, hm, hends, rfl⟩ := ih.mp htail
          refine ⟨m + 1, by omega, ends_succ_iff.mpr ⟨hin, hends⟩, ?_⟩
          simp [List.range_succ_eq_map, chunk, Nat.add_mul, Nat.add_assoc, Nat.add_comm]
        · rintro ⟨m, hm, hends, rfl⟩
          cases m with
          | zero => exact absurd hin (ends_zero_iff.mp hends)
          | succ m =>
              refine ⟨_, ih.mpr ⟨m, by omega, (ends_succ_iff.mp hends).2, rfl⟩, ?_⟩
              simp [List.range_succ_eq_map, chunk, Nat.add_mul, Nat.add_assoc,
                Nat.add_comm]
      · rw [if_neg hin]
        constructor
        · intro h
          exact ⟨0, Nat.succ_pos _, ends_zero_iff.mpr hin, (Option.some.inj h).symm⟩
        · rintro ⟨m, hm, hends, rfl⟩
          cases m with
          | zero => rfl
          | succ m => exact absurd (ends_succ_iff.mp hends).1 hin

/-! ## The chunks of a thread -/

variable {overload : Overload} {group : Group} {copies : Size → List Chunk}
  {rank : Size} {i j k : ℕ}

theorem chunk_touches_iff (alignment : Size) (i j : ℕ) :
    (chunk alignment j).Touches i ↔
      j * alignment.toNat % 2 ^ 64 ≤ i ∧
        i < j * alignment.toNat % 2 ^ 64 + alignment.toNat := by
  simp only [Chunk.Touches, chunk, position_toNat]

theorem chunk_touches_iff_of_lt (h : j * alignment.toNat < total.toNat) :
    (chunk alignment j).Touches i ↔
      j * alignment.toNat ≤ i ∧ i < j * alignment.toNat + alignment.toNat := by
  rw [chunk_touches_iff, Nat.mod_eq_of_lt (Nat.lt_trans h total.isLt)]

/-- The thread that copies chunk number `j`. -/
def owner (group : Group) (j : ℕ) : Size := BitVec.ofNat 64 (j % group.size.toNat)

theorem Group.size_toNat_pos (group : Group) : 0 < group.size.toNat := group.size_pos

theorem owner_toNat (group : Group) (j : ℕ) :
    (owner group j).toNat = j % group.size.toNat := by
  have hlt := Nat.mod_lt j group.size_toNat_pos
  rw [owner, BitVec.toNat_ofNat, Nat.mod_eq_of_lt (Nat.lt_trans hlt group.size.isLt)]

theorem owner_lt (group : Group) (j : ℕ) : owner group j < group.size := by
  rw [BitVec.lt_def, owner_toNat]
  exact Nat.mod_lt j group.size_toNat_pos

theorem memcpyAsync_of_size_ne_one (hsize : group.size ≠ 1) (fuel : ℕ) (rank : Size) :
    memcpyAsync overload total group fuel rank =
      stridedLoop overload.alignment total group.size fuel
        (position overload.alignment rank.toNat) := by
  rw [memcpyAsync, stridedMemcpy, if_neg hsize, rank_mul_alignment]

theorem Completes.ends (h : Completes overload total group copies)
    (hsize : group.size ≠ 1) (hrank : rank < group.size) :
    ∃ m, Ends overload.alignment total group.size rank.toNat m ∧
      copies rank = (List.range m).map fun k =>
        chunk overload.alignment (rank.toNat + k * group.size.toNat) := by
  obtain ⟨fuel, hfuel⟩ := h rank hrank
  rw [memcpyAsync_of_size_ne_one hsize] at hfuel
  obtain ⟨m, -, hends, hcopies⟩ := stridedLoop_eq_some_iff.mp hfuel
  exact ⟨m, hends, hcopies⟩

/-- A thread copies a chunk if no chunk before it takes it out of the range. -/
theorem Completes.chunk_mem (h : Completes overload total group copies)
    (hsize : group.size ≠ 1)
    (hin : ∀ k ≤ j / group.size.toNat,
      position overload.alignment (j % group.size.toNat + k * group.size.toNat) <
        total) :
    chunk overload.alignment j ∈ copies (owner group j) := by
  obtain ⟨m, hends, hcopies⟩ := h.ends hsize (owner_lt group j)
  rw [owner_toNat] at hends hcopies
  rw [hcopies, List.mem_map]
  refine ⟨j / group.size.toNat, List.mem_range.mpr (hends.lt hin), ?_⟩
  rw [Nat.mod_add_div']

theorem Completes.chunk_mem_of_lt (h : Completes overload total group copies)
    (hsize : group.size ≠ 1) (hj : j * overload.alignment.toNat < total.toNat) :
    chunk overload.alignment j ∈ copies (owner group j) := by
  apply h.chunk_mem hsize
  intro k hk
  have hle : j % group.size.toNat + k * group.size.toNat ≤ j := by
    calc j % group.size.toNat + k * group.size.toNat
        ≤ j % group.size.toNat + j / group.size.toNat * group.size.toNat :=
          Nat.add_le_add_left (Nat.mul_le_mul_right _ hk) _
      _ = j := Nat.mod_add_div' j group.size.toNat
  apply position_lt_of_mul_lt
  exact Nat.lt_of_le_of_lt (Nat.mul_le_mul_right _ hle) hj

/-! ## Where the chunks do not divide the range -/

/-- The first multiple that reaches a bound. -/
theorem exists_first_multiple {a bound j : ℕ} (hbound : 0 < bound)
    (hj : bound ≤ j * a) : ∃ J ≤ j, 0 < J ∧ bound ≤ J * a ∧ J * a < bound + a := by
  have hex : ∃ j, bound ≤ j * a := ⟨j, hj⟩
  have hspec := Nat.find_spec hex
  have hpos : 0 < Nat.find hex := by
    apply Nat.pos_of_ne_zero
    intro h
    rw [h] at hspec
    omega
  have hmin := Nat.find_min hex (Nat.sub_one_lt_of_lt hpos)
  refine ⟨Nat.find hex, Nat.find_min' hex hj, hpos, hspec, ?_⟩
  calc Nat.find hex * a = (Nat.find hex - 1) * a + a := by
        rw [← Nat.succ_mul, Nat.succ_eq_add_one, Nat.sub_add_cancel hpos]
    _ < bound + a := by omega

section Necessary

variable (hrun : Completes overload total group copies)
  (hexact : Exact total group copies) (hsize : group.size ≠ 1)
  (htotal : 0 < total.toNat)

include hrun hsize htotal

/-- With a step of zero the thread of rank zero stays at offset zero. -/
theorem alignment_pos : 0 < overload.alignment.toNat := by
  by_contra halign
  obtain ⟨m, hends, -⟩ := hrun.ends hsize group.size_pos
  have hzero : overload.alignment.toNat = 0 := by omega
  apply hends.2
  rw [position_lt_iff, hzero, Nat.mul_zero]
  exact htotal

include hexact

/-- A chunk that begins in the range ends in it. -/
theorem alignment_dvd : overload.alignment.toNat ∣ total.toNat := by
  have hpos := alignment_pos hrun hsize htotal
  by_contra hdvd
  have hrest : 0 < total.toNat % overload.alignment.toNat :=
    Nat.pos_of_ne_zero fun h => hdvd (Nat.dvd_of_mod_eq_zero h)
  have hdiv := Nat.div_add_mod' total.toNat overload.alignment.toNat
  have hlast := Nat.mod_lt total.toNat hpos
  have hbegin : total.toNat / overload.alignment.toNat * overload.alignment.toNat <
      total.toNat := by
    omega
  have hmem := hrun.chunk_mem_of_lt hsize hbegin
  have htouch : (chunk overload.alignment
      (total.toNat / overload.alignment.toNat)).Touches total.toNat := by
    rw [chunk_touches_iff_of_lt hbegin]
    omega
  have hin := (hexact.covered total.toNat).mp ⟨_, owner_lt group _, _, hmem, htouch⟩
  exact Nat.lt_irrefl _ hin

omit hexact in
/-- The first offset that wraps around is the first of its thread to do so. -/
theorem offsets_in {q : ℕ} (hq : total.toNat = q * overload.alignment.toNat)
    (hle : j ≤ q + (group.size.toNat - 1))
    (hin : position overload.alignment j < total) :
    ∀ k ≤ j / group.size.toNat,
      position overload.alignment (j % group.size.toNat + k * group.size.toNat) <
        total := by
  intro k hk
  have hmod := Nat.mod_add_div' j group.size.toNat
  rcases Nat.lt_or_eq_of_le hk with hlt | rfl
  · have hpos := alignment_pos hrun hsize htotal
    have hgroup := group.size_toNat_pos
    have hstep : (k + 1) * group.size.toNat ≤
        j / group.size.toNat * group.size.toNat :=
      Nat.mul_le_mul_right _ hlt
    rw [Nat.add_mul, Nat.one_mul] at hstep
    apply position_lt_of_mul_lt
    rw [hq]
    exact Nat.mul_lt_mul_of_pos_right (by omega) hpos
  · rw [hmod]
    exact hin

omit htotal in
theorem owner_eq_of_touches {i l : ℕ}
    (hmem : chunk overload.alignment j ∈ copies (owner group j))
    (htouch : (chunk overload.alignment j).Touches i)
    (hl : l * overload.alignment.toNat < total.toNat)
    (htouch' : (chunk overload.alignment l).Touches i) :
    j % group.size.toNat = l % group.size.toNat := by
  have hmem' := hrun.chunk_mem_of_lt hsize hl
  rw [← owner_toNat, ← owner_toNat]
  exact congrArg _ (hexact.once i (owner_lt group j) (owner_lt group l)
    ⟨_, hmem, htouch⟩ ⟨_, hmem', htouch'⟩)

/-- The thread that wraps around to offset zero is the one of rank zero, and
never leaves the range. -/
theorem position_ne_zero (hj : 0 < j)
    (hin : ∀ k ≤ j / group.size.toNat,
      position overload.alignment (j % group.size.toNat + k * group.size.toNat) <
        total) :
    position overload.alignment j ≠ 0#64 := by
  intro hzero
  have hpos := alignment_pos hrun hsize htotal
  have hchunk : chunk overload.alignment j = chunk overload.alignment 0 := by
    rw [chunk, chunk, hzero, position, Nat.zero_mul]
  have htouch : (chunk overload.alignment 0).Touches 0 := by
    rw [chunk_touches_iff]
    omega
  have hrank := owner_eq_of_touches hrun hexact hsize
    (hrun.chunk_mem hsize hin) (hchunk ▸ htouch) (by omega) htouch
  rw [Nat.zero_mod] at hrank
  have hmod := Nat.mod_add_div' j group.size.toNat
  rw [hrank, Nat.zero_add] at hmod
  obtain ⟨m, hrounds, -⟩ := hrun.ends hsize group.size_pos
  have hends : Ends overload.alignment total group.size 0 m := hrounds
  have hlt : j / group.size.toNat < m := by
    apply hends.lt
    simpa only [hrank] using hin
  have hround : 0 < j / group.size.toNat := by
    apply Nat.pos_of_ne_zero
    intro h
    rw [h] at hmod
    omega
  -- the offset after the last round is one that the loop has already been at
  apply hends.2
  have hback : m * group.size.toNat =
      (m - j / group.size.toNat) * group.size.toNat + j := by
    conv => rhs; rhs; rw [← hmod]
    rw [← Nat.add_mul, Nat.sub_add_cancel (Nat.le_of_lt hlt)]
  rw [hback, ← Nat.add_assoc, position_add, hzero, BitVec.add_zero]
  exact hends.1 _ (by omega)

/-- A chunk that begins between two chunks of other threads overlaps both. -/
theorem not_between
    (hmem : chunk overload.alignment j ∈ copies (owner group j))
    (hbegin : 0 < (position overload.alignment j).toNat)
    (hbefore : (position overload.alignment j).toNat < overload.alignment.toNat) :
    False := by
  obtain ⟨q, hq⟩ := alignment_dvd hrun hexact hsize htotal
  have htouch (i : ℕ) : (chunk overload.alignment j).Touches i ↔
      (position overload.alignment j).toNat ≤ i ∧
        i < (position overload.alignment j).toNat + overload.alignment.toNat :=
    Iff.rfl
  have hsecond : overload.alignment.toNat < total.toNat := by
    apply (hexact.covered _).mp
    exact ⟨_, owner_lt group j, _, hmem, (htouch _).mpr (by omega)⟩
  have hfirst : 0 * overload.alignment.toNat < total.toNat := by omega
  have hnext : 1 * overload.alignment.toNat < total.toNat := by omega
  have hzero := owner_eq_of_touches hrun hexact hsize (l := 0)
    (i := overload.alignment.toNat - 1) hmem ((htouch _).mpr (by omega)) hfirst
    ((chunk_touches_iff_of_lt hfirst).mpr (by omega))
  have hone := owner_eq_of_touches hrun hexact hsize (l := 1)
    (i := overload.alignment.toNat) hmem ((htouch _).mpr (by omega)) hnext
    ((chunk_touches_iff_of_lt hnext).mpr (by omega))
  have hgroup : group.size.toNat ≠ 1 := fun h => hsize (BitVec.eq_of_toNat_eq h)
  have hpos := group.size_toNat_pos
  rw [hzero, Nat.zero_mod, Nat.mod_eq_of_lt (by omega)] at hone
  exact absurd hone (by decide)

/-- A thread whose offset wraps around comes back into the range. -/
theorem offsets_lt :
    total.toNat + (group.size.toNat - 1) * overload.alignment.toNat < 2 ^ 64 := by
  obtain ⟨q, hq⟩ := alignment_dvd hrun hexact hsize htotal
  rw [Nat.mul_comm] at hq
  by_contra hwrap
  have hlast : 2 ^ 64 ≤ (q + (group.size.toNat - 1)) * overload.alignment.toNat := by
    rw [Nat.add_mul, ← hq]
    omega
  obtain ⟨J, hJle, hJpos, hreach, hover⟩ := exists_first_multiple (by decide) hlast
  have hbits := overload.alignment.isLt
  have hwrapped : (position overload.alignment J).toNat =
      J * overload.alignment.toNat - 2 ^ 64 := by
    rw [position_toNat]
    omega
  have hle := Nat.le_of_dvd htotal (alignment_dvd hrun hexact hsize htotal)
  have hin := offsets_in hrun hsize htotal hq hJle (by
    rw [BitVec.lt_def]
    omega)
  have hne := position_ne_zero hrun hexact hsize htotal hJpos hin
  refine not_between hrun hexact hsize htotal (hrun.chunk_mem hsize hin) ?_ (by omega)
  apply Nat.pos_of_ne_zero
  intro h
  exact hne (BitVec.eq_of_toNat_eq h)

theorem divides_of_exact : Divides overload.alignment total group :=
  ⟨alignment_dvd hrun hexact hsize htotal, offsets_lt hrun hexact hsize htotal⟩

end Necessary

/-! ## Where they do -/

theorem mul_add_lt_of_lt {a q j : ℕ} (h : j * a < q * a) : j * a + a ≤ q * a := by
  rw [← Nat.succ_mul]
  exact Nat.mul_le_mul_right a (Nat.lt_of_mul_lt_mul_right h)

/-- A thread copies its chunks and then leaves the range. -/
theorem Divides.exists_ends (h : Divides alignment total group)
    (htotal : 0 < total.toNat) (hrank : rank < group.size) :
    ∃ m ≤ total.toNat, Ends alignment total group.size rank.toNat m ∧
      ∀ k, k < m ↔
        (rank.toNat + k * group.size.toNat) * alignment.toNat < total.toNat := by
  obtain ⟨⟨q, hq⟩, hbound⟩ := h
  rw [Nat.mul_comm] at hq
  have hpos : 0 < alignment.toNat := by
    apply Nat.pos_of_ne_zero
    intro hzero
    rw [hzero, Nat.mul_zero] at hq
    omega
  have hin (c : ℕ) : c * alignment.toNat < total.toNat ↔ c < q := by
    rw [hq]
    exact Nat.mul_lt_mul_right hpos
  have hgroup := group.size_toNat_pos
  have hqle : q ≤ total.toNat := by
    rw [hq]
    exact Nat.le_mul_of_pos_right q hpos
  have hex : ∃ k, q ≤ rank.toNat + k * group.size.toNat := by
    refine ⟨q, Nat.le_add_left_of_le ?_⟩
    exact Nat.le_mul_of_pos_right q hgroup
  have hbefore {k : ℕ} (hk : k < Nat.find hex) :
      rank.toNat + k * group.size.toNat < q :=
    Nat.not_le.mp (Nat.find_min hex hk)
  have hleave : rank.toNat + Nat.find hex * group.size.toNat ≤
      q + (group.size.toNat - 1) := by
    rcases Nat.eq_zero_or_pos (Nat.find hex) with hfirst | hlater
    · have hlt : rank.toNat < group.size.toNat := hrank
      rw [hfirst]
      omega
    · have hprev := hbefore (Nat.sub_one_lt_of_lt hlater)
      have hstep : Nat.find hex * group.size.toNat =
          (Nat.find hex - 1) * group.size.toNat + group.size.toNat := by
        rw [← Nat.succ_mul, Nat.succ_eq_add_one, Nat.sub_add_cancel hlater]
      omega
  have hreach := Nat.find_spec hex
  refine ⟨Nat.find hex, Nat.le_trans (Nat.find_min' hex ?_) hqle, ⟨?_, ?_⟩, ?_⟩
  · exact Nat.le_add_left_of_le (Nat.le_mul_of_pos_right q hgroup)
  · intro k hk
    exact position_lt_of_mul_lt ((hin _).mpr (hbefore hk))
  · have hend := Nat.mul_le_mul_right alignment.toNat hleave
    rw [Nat.add_mul q, ← hq] at hend
    rw [position_lt_iff, Nat.mod_eq_of_lt (Nat.lt_of_le_of_lt hend hbound), hin]
    exact Nat.not_lt.mpr hreach
  · intro k
    rw [hin]
    refine ⟨hbefore, ?_⟩
    intro hk
    by_contra hle
    have hmul := Nat.mul_le_mul_right group.size.toNat (Nat.not_lt.mp hle)
    omega

/-- The copies of a thread whose loop ends, which it does after no more rounds
than there are bytes. -/
def copiesOf (overload : Overload) (total : Size) (group : Group) (rank : Size) :
    List Chunk :=
  (memcpyAsync overload total group (total.toNat + 1) rank).getD []

/-- Byte `i` belongs to the thread whose turn its chunk is. -/
theorem Divides.copiesOf_spec (h : Divides overload.alignment total group)
    (htotal : 0 < total.toNat) (hsize : group.size ≠ 1) (hrank : rank < group.size) :
    memcpyAsync overload total group (total.toNat + 1) rank =
        some (copiesOf overload total group rank) ∧
      ∀ i, Reaches (copiesOf overload total group) rank i ↔
        i < total.toNat ∧
          i / overload.alignment.toNat % group.size.toNat = rank.toNat := by
  obtain ⟨m, hm, hends, hin⟩ := h.exists_ends htotal hrank
  have hrun := (memcpyAsync_of_size_ne_one hsize (total.toNat + 1) rank).trans
    (stridedLoop_eq_some_iff.mpr ⟨m, Nat.lt_succ_of_le hm, hends, rfl⟩)
  have hcopies : copiesOf overload total group rank = (List.range m).map fun k =>
      chunk overload.alignment (rank.toNat + k * group.size.toNat) := by
    rw [copiesOf, hrun, Option.getD_some]
  refine ⟨by rw [hrun, hcopies], ?_⟩
  intro i
  obtain ⟨⟨q, hq⟩, -⟩ := h
  rw [Nat.mul_comm] at hq
  have hlt : rank.toNat < group.size.toNat := hrank
  rw [Reaches, hcopies]
  constructor
  · rintro ⟨c, hmem, htouch⟩
    obtain ⟨k, hk, rfl⟩ := List.mem_map.mp hmem
    have hbegin := (hin k).mp (List.mem_range.mp hk)
    rw [chunk_touches_iff_of_lt hbegin] at htouch
    have hend := mul_add_lt_of_lt (hq ▸ hbegin)
    have hdiv : i / overload.alignment.toNat =
        rank.toNat + k * group.size.toNat := by
      apply Nat.div_eq_of_lt_le htouch.1
      rw [Nat.succ_mul]
      exact htouch.2
    refine ⟨by omega, ?_⟩
    rw [hdiv, Nat.add_mul_mod_self_right, Nat.mod_eq_of_lt hlt]
  · rintro ⟨hi, howner⟩
    have hdiv := Nat.mod_add_div' (i / overload.alignment.toNat) group.size.toNat
    rw [howner] at hdiv
    have hpos : 0 < overload.alignment.toNat := by
      apply Nat.pos_of_ne_zero
      intro hzero
      rw [hzero, Nat.mul_zero] at hq
      omega
    have hchunk := Nat.div_mul_le_self i overload.alignment.toNat
    have hnext := Nat.lt_div_mul_add hpos (a := i)
    refine ⟨chunk overload.alignment (i / overload.alignment.toNat),
      List.mem_map.mpr ⟨i / overload.alignment.toNat / group.size.toNat, ?_, ?_⟩, ?_⟩
    · rw [List.mem_range, hin, hdiv]
      exact Nat.lt_of_le_of_lt hchunk hi
    · rw [hdiv]
    · rw [chunk_touches_iff_of_lt (Nat.lt_of_le_of_lt hchunk hi)]
      exact ⟨hchunk, hnext⟩

theorem copies_of_divides (h : Divides overload.alignment total group)
    (htotal : 0 < total.toNat) (hsize : group.size ≠ 1) :
    Copies overload total group := by
  refine ⟨copiesOf overload total group, ?_, Exact.of_covered ?_ ?_⟩
  · intro rank hrank
    exact ⟨_, (h.copiesOf_spec htotal hsize hrank).1⟩
  · intro i
    constructor
    · rintro ⟨rank, hrank, hreach⟩
      exact (((h.copiesOf_spec htotal hsize hrank).2 i).mp hreach).1
    · intro hi
      have hrank := owner_lt group (i / overload.alignment.toNat)
      exact ⟨_, hrank, ((h.copiesOf_spec htotal hsize hrank).2 i).mpr
        ⟨hi, (owner_toNat _ _).symm⟩⟩
  · intro i rank rank' hrank hrank' hreach hreach'
    apply BitVec.eq_of_toNat_eq
    rw [← (((h.copiesOf_spec htotal hsize hrank).2 i).mp hreach).2,
      ← (((h.copiesOf_spec htotal hsize hrank').2 i).mp hreach').2]

/-! ## One thread, and nothing to copy -/

theorem toNat_pos (h : total ≠ 0) : 0 < total.toNat := by
  apply Nat.pos_of_ne_zero
  intro hzero
  exact h (BitVec.eq_of_toNat_eq hzero)

theorem copies_of_size_eq_one (overload : Overload) (total : Size)
    (hsize : group.size = 1) : Copies overload total group := by
  have hreach (rank : Size) (i : ℕ) :
      Reaches (fun _ => [⟨0, total⟩]) rank i ↔ i < total.toNat := by
    simp [Reaches, Chunk.Touches]
  refine ⟨fun _ => [⟨0, total⟩], ?_, Exact.of_covered ?_ ?_⟩
  · intro rank _
    exact ⟨0, by rw [memcpyAsync, stridedMemcpy, if_pos hsize]⟩
  · intro i
    simp only [hreach]
    exact ⟨fun ⟨_, _, h⟩ => h, fun h => ⟨0, group.size_pos, h⟩⟩
  · intro i rank rank' hrank hrank' _ _
    rw [BitVec.lt_def, hsize] at hrank hrank'
    apply BitVec.eq_of_toNat_eq
    have hone : (1 : Size).toNat = 1 := rfl
    omega

theorem copies_of_total_eq_zero (overload : Overload) (htotal : total = 0)
    (hsize : group.size ≠ 1) : Copies overload total group := by
  have hout (offset : Size) : ¬ offset < total := by
    rw [htotal, BitVec.lt_def]
    exact Nat.not_lt_zero _
  refine ⟨fun _ => [], ?_, Exact.of_covered ?_ ?_⟩
  · intro rank _
    refine ⟨1, ?_⟩
    rw [memcpyAsync_of_size_ne_one hsize, stridedLoop, if_neg (hout _)]
  · intro i
    simp [Reaches, htotal]
  · intro i rank rank' _ _ hreach _
    obtain ⟨c, hmem, -⟩ := hreach
    cases hmem

/-- The copy is right for one thread, for an empty range, and for a range that
the chunks divide. -/
theorem memcpyAsync_copies_iff (overload : Overload) (total : Size) (group : Group) :
    Copies overload total group ↔
      group.size = 1 ∨ total = 0 ∨ Divides overload.alignment total group := by
  constructor
  · rintro ⟨copies, hrun, hexact⟩
    by_cases hsize : group.size = 1
    · exact Or.inl hsize
    · by_cases htotal : total = 0
      · exact Or.inr (Or.inl htotal)
      · exact Or.inr (Or.inr (divides_of_exact hrun hexact hsize (toNat_pos htotal)))
  · intro h
    by_cases hsize : group.size = 1
    · exact copies_of_size_eq_one overload total hsize
    rcases h.resolve_left hsize with htotal | hdivides
    · exact copies_of_total_eq_zero overload htotal hsize
    · by_cases htotal : total = 0
      · exact copies_of_total_eq_zero overload htotal hsize
      · exact copies_of_divides hdivides (toNat_pos htotal) hsize

/-- Two threads copy six bytes as two `int`s. -/
theorem memcpyAsync_not_copies_int :
    ¬ Copies (.typed 4) 6 { size := 2 } := by
  rintro ⟨copies, hrun, hexact⟩
  have hdvd := alignment_dvd hrun hexact (by decide) (by decide)
  exact absurd hdvd (by decide)

end Libhipcxx.Barrier.MemcpyAsync
