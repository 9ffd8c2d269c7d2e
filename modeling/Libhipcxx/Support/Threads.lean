import Mathlib.Algebra.BigOperators.Group.Finset.Basic
import Mathlib.Algebra.Order.BigOperators.Group.Finset
import Mathlib.Data.Fintype.BigOperators

/-!
# Sums over a family of threads

Program points are stored as a function from threads to local states, and a
step rewrites one entry with `Function.update`.  Accounting invariants sum a
quantity over all threads; these lemmas say how such a sum moves in one step.
Others ask for a thread with some property, or speak of each thread that has
one; these survive a step that changes one thread in the right way.
-/

namespace Libhipcxx.Threads

variable {ι : Type*} [Fintype ι] {α : Type*}

/-- Total of a local quantity over all threads. -/
def total (f : α → ℕ) (g : ι → α) : ℕ := ∑ i, f (g i)

/-- Replacing one entry exchanges its old contribution for the new one. -/
theorem total_update [DecidableEq ι] (f : α → ℕ) (g : ι → α) (i : ι) (a : α) :
    total f (Function.update g i a) + f (g i) = total f g + f a := by
  have hnew : total f (Function.update g i a) =
      f a + ∑ j ∈ Finset.univ.erase i, f (g j) := by
    rw [total, ← Finset.add_sum_erase _ _ (Finset.mem_univ i)]
    congr 1
    · simp
    · refine Finset.sum_congr rfl fun j hj => ?_
      rw [Function.update_of_ne (Finset.ne_of_mem_erase hj)]
  have hold : total f g = f (g i) + ∑ j ∈ Finset.univ.erase i, f (g j) := by
    rw [total, ← Finset.add_sum_erase _ _ (Finset.mem_univ i)]
  omega

/-- An entry of the same contribution does not change the total. -/
theorem total_update_of_eq [DecidableEq ι] {f : α → ℕ} {g : ι → α} {i : ι} {a : α}
    (h : f a = f (g i)) : total f (Function.update g i a) = total f g := by
  have htotal := total_update f g i a
  rwa [h, Nat.add_right_cancel_iff] at htotal

theorem total_update_of_add [DecidableEq ι] {f : α → ℕ} {g : ι → α} {i : ι} {a : α} {m : ℕ}
    (h : f a = f (g i) + m) : total f (Function.update g i a) = total f g + m := by
  have htotal := total_update f g i a
  omega

theorem le_total (f : α → ℕ) (g : ι → α) (i : ι) : f (g i) ≤ total f g :=
  Finset.single_le_sum (f := fun j => f (g j)) (fun _ _ => Nat.zero_le _)
    (Finset.mem_univ i)

theorem total_const_zero (f : α → ℕ) (g : ι → α) (h : ∀ i, f (g i) = 0) :
    total f g = 0 :=
  Finset.sum_eq_zero fun i _ => h i

/-! ## One thread changes -/

section Update

variable {κ β : Type*} [DecidableEq κ] {g : κ → β} {i j : κ} {a b : β}

/-- A property that the new state does not have is the one of another thread. -/
theorem prop_of_update {P : β → Prop} (h : P (Function.update g i a j))
    (hne : ¬P a) : j ≠ i ∧ P (g j) := by
  by_cases hj : j = i
  · rw [hj, Function.update_self] at h
    exact absurd h hne
  · rw [Function.update_of_ne hj] at h
    exact ⟨hj, h⟩

/-- A state other than the new one is the state of another thread. -/
theorem of_update (h : Function.update g i a j = b) (hne : a ≠ b) :
    j ≠ i ∧ g j = b :=
  prop_of_update (P := (· = b)) h hne

/-- What follows for the changed thread and for the others follows for all. -/
theorem imp_update {P : β → Prop} {Q : κ → Prop} (hnew : P a → Q i)
    (hold : ∀ j, P (g j) → Q j) (j : κ) (h : P (Function.update g i a j)) :
    Q j := by
  by_cases hj : j = i
  · rw [hj, Function.update_self] at h
    rw [hj]
    exact hnew h
  · rw [Function.update_of_ne hj] at h
    exact hold j h

/-- A property of the new state does not get lost. -/
theorem prop_update {P : β → Prop} (hnew : P a) (h : P (g j)) :
    P (Function.update g i a j) := by
  by_cases hj : j = i
  · rwa [hj, Function.update_self]
  · rwa [Function.update_of_ne hj]

/-- A view of the states in which the new state looks like the old one. -/
theorem apply_update_eq {γ : Type*} {f : β → γ} (h : f a = f (g i)) (j : κ) :
    f (Function.update g i a j) = f (g j) := by
  by_cases hj : j = i
  · rw [hj, Function.update_self, h]
  · rw [Function.update_of_ne hj]

/-- A property that the changed thread does not lose is still some thread's. -/
theorem exists_update {P : β → Prop} (hkeep : P (g i) → P a)
    (h : ∃ j, P (g j)) : ∃ j, P (Function.update g i a j) := by
  obtain ⟨j, hj⟩ := h
  refine ⟨j, ?_⟩
  by_cases hji : j = i
  · rw [hji] at hj
    rw [hji, Function.update_self]
    exact hkeep hj
  · rwa [Function.update_of_ne hji]

end Update

end Libhipcxx.Threads
