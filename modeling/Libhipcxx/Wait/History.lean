import Libhipcxx.Support.Threads

/-!
# Stores, reads and notifications

A record, kept beside a protocol that waits for values to change and never read
by it.  For each waiter it says whether the value has been changed away since
the waiter last read it, and which notifications were called after such a
change and have since completed.  A waiter that sleeps through a completed
notification of this kind has lost its wake-up.
-/

namespace Libhipcxx.Wait

open Threads

variable {ι : Type} [DecidableEq ι]

/-- `covers n w`: the notification that `n` is carrying out was called after
the value had been changed away from the one that `w` awaits, and `w` has not
read it since.  `notified w`: such a notification has completed. -/
structure History (ι : Type) where
  changed : ι → Bool
  covers : ι → ι → Bool
  notified : ι → Bool

namespace History

def empty : History ι where
  changed _ := false
  covers _ _ := false
  notified _ := false

/-- A waiter reads the value. -/
def read (h : History ι) (t : ι) : History ι where
  changed := Function.update h.changed t false
  covers n := Function.update (h.covers n) t false
  notified := Function.update h.notified t false

/-- A store, away from what the given waiters await. -/
def store (h : History ι) (away : ι → Bool) : History ι :=
  { h with changed := fun w => h.changed w || away w }

/-- A notification is called that concerns the given waiters. -/
def call (h : History ι) (t : ι) (concerns : ι → Bool) : History ι :=
  { h with covers :=
      Function.update h.covers t fun w => concerns w && h.changed w }

/-- The notification of a thread completes. -/
def complete (h : History ι) (t : ι) : History ι :=
  { h with
    covers := Function.update h.covers t fun _ => false
    notified := fun w => h.notified w || h.covers t w }

variable {h : History ι} {t n w : ι}

theorem covers_read : (h.read t).covers n w = true ↔
    w ≠ t ∧ h.covers n w = true := by
  by_cases hw : w = t <;> simp [read, hw]

theorem notified_read : (h.read t).notified w = true ↔
    w ≠ t ∧ h.notified w = true := by
  by_cases hw : w = t <;> simp [read, hw]

@[simp]
theorem covers_call {concerns : ι → Bool} :
    (h.call t concerns).covers n w = true ↔
      if n = t then concerns w = true ∧ h.changed w = true
      else h.covers n w = true := by
  by_cases hn : n = t <;> simp [call, hn]

@[simp]
theorem covers_complete : (h.complete t).covers n w = true ↔
    n ≠ t ∧ h.covers n w = true := by
  by_cases hn : n = t <;> simp [complete, hn]

theorem notified_complete : (h.complete t).notified w = true ↔
    h.notified w = true ∨ h.covers t w = true := by
  simp [complete]

/-! ## Addresses -/

/-- A notification covers waiters of its own address, and neither side has gone
on to something else. -/
def Covered {A V π : Type} (h : History ι) (notifies : π → Option A)
    (awaits : π → Option (A × V)) (pc : ι → π) : Prop :=
  ∀ n w, h.covers n w = true →
    ∃ a val, notifies (pc n) = some a ∧ awaits (pc w) = some (a, val)

variable {A V π : Type} {notifies : π → Option A} {awaits : π → Option (A × V)}
  {pc pc' : ι → π} {p : π}

omit [DecidableEq ι] in
/-- A covered waiter awaits the address that is notified. -/
theorem Covered.address_eq {n w : ι} {a b : A} {val : V}
    (hcovered : h.Covered notifies awaits pc) (hcovers : h.covers n w = true)
    (hn : notifies (pc n) = some a) (hw : awaits (pc w) = some (b, val)) : b = a := by
  obtain ⟨c, val', hc, hawaits⟩ := hcovered n w hcovers
  obtain rfl := Option.some.inj (hn.symm.trans hc)
  exact congrArg Prod.fst (Option.some.inj (hw.symm.trans hawaits))

/-- A thread goes on, and what it notifies or awaits is the same. -/
theorem Covered.update (hcovered : h.Covered notifies awaits pc)
    (hnotifies : notifies p = notifies (pc t)) (hawaits : awaits p = awaits (pc t)) :
    h.Covered notifies awaits (Function.update pc t p) := by
  intro n w hcovers
  obtain ⟨a, val, hn, hw⟩ := hcovered n w hcovers
  exact ⟨a, val, (apply_update_eq hnotifies n).trans hn,
    (apply_update_eq hawaits w).trans hw⟩

theorem Covered.read (hcovered : h.Covered notifies awaits pc)
    (hfrom : notifies (pc t) = none) :
    (h.read t).Covered notifies awaits (Function.update pc t p) := by
  intro n w hcovers
  obtain ⟨hwt, hcovers⟩ := covers_read.mp hcovers
  obtain ⟨a, val, hn, hw⟩ := hcovered n w hcovers
  have hnt : n ≠ t := by
    rintro rfl
    rw [hfrom] at hn
    cases hn
  refine ⟨a, val, ?_, ?_⟩
  · rwa [Function.update_of_ne hnt]
  · rwa [Function.update_of_ne hwt]

theorem Covered.call {a : A} {concerns : ι → Bool}
    (hcovered : h.Covered notifies awaits pc)
    (hfrom : awaits (pc t) = none) (hto : notifies p = some a)
    (hconcerns : ∀ w, concerns w = true → ∃ val, awaits (pc w) = some (a, val)) :
    (h.call t concerns).Covered notifies awaits (Function.update pc t p) := by
  have hwaiter : ∀ {w : ι} {x : A × V}, awaits (pc w) = some x → w ≠ t := by
    rintro w x hw rfl
    rw [hfrom] at hw
    cases hw
  intro n w hcovers
  rw [covers_call] at hcovers
  split at hcovers
  · rename_i hnt
    obtain ⟨val, hw⟩ := hconcerns w hcovers.1
    rw [hnt, Function.update_self, Function.update_of_ne (hwaiter hw)]
    exact ⟨a, val, hto, hw⟩
  · rename_i hnt
    obtain ⟨b, val, hn, hw⟩ := hcovered n w hcovers
    rw [Function.update_of_ne hnt, Function.update_of_ne (hwaiter hw)]
    exact ⟨b, val, hn, hw⟩

theorem Covered.complete (hcovered : h.Covered notifies awaits pc)
    (hfrom : awaits (pc t) = none)
    (hnotifies : ∀ n a, n ≠ t → notifies (pc n) = some a →
      notifies (pc' n) = some a)
    (hawaits : ∀ w, w ≠ t → awaits (pc' w) = awaits (pc w)) :
    (h.complete t).Covered notifies awaits pc' := by
  intro n w hcovers
  obtain ⟨hnt, hcovers⟩ := covers_complete.mp hcovers
  obtain ⟨a, val, hn, hw⟩ := hcovered n w hcovers
  have hwt : w ≠ t := by
    rintro rfl
    rw [hfrom] at hw
    cases hw
  exact ⟨a, val, hnotifies n a hnt hn, (hawaits w hwt).trans hw⟩

end History

end Libhipcxx.Wait
