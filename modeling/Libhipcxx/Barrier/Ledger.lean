import Libhipcxx.Support.Threads

/-!
# What a barrier accounts for

A barrier runs through phases.  The ledger of the current phase records how
many arrivals it expects, how many have been issued to it, how many of those
have been counted, and how many participants have announced that they leave.
Closing a phase takes the leavers off the next one.

The code reads nothing of this.  A ledger is sound beside the arrivals that
are still on their way: every arrival issued and not yet counted belongs to
the current phase, and each announcement to leave is itself such an arrival or
a counted one.
-/

namespace Libhipcxx.Barrier

open Threads

/-- The account of the current phase. -/
structure Ledger where
  phaseNo : ℕ
  quota : ℕ
  issued : ℕ
  counted : ℕ
  drops : ℕ
  deriving DecidableEq

namespace Ledger

def start (n : ℕ) : Ledger := ⟨0, n, 0, 0, 0⟩

/-- An arrival with this update sets out. -/
def issue (g : Ledger) (update : ℕ) : Ledger :=
  { g with issued := g.issued + update }

/-- A participant announces that it leaves. -/
def drop (g : Ledger) : Ledger :=
  { g with drops := g.drops + 1 }

/-- An arrival is counted. -/
def count (g : Ledger) (update : ℕ) : Ledger :=
  { g with counted := g.counted + update }

/-- The phase ends and the next one begins. -/
def close (g : Ledger) : Ledger :=
  ⟨g.phaseNo + 1, g.quota - g.drops, 0, 0, 0⟩

/-- The update is the one that brings the count to the quota. -/
def CountsLast (g : Ledger) (update : ℕ) : Prop :=
  0 < update ∧ g.counted + update = g.quota

instance (g : Ledger) (update : ℕ) : Decidable (g.CountsLast update) :=
  inferInstanceAs (Decidable (_ ∧ _))

/-- The ledger beside `inFlight` updates on their way, `dropping` of which
have yet to announce that they leave. -/
structure Sound (g : Ledger) (inFlight dropping : ℕ) : Prop where
  issued_eq : g.issued = g.counted + inFlight
  issued_le : g.issued ≤ g.quota
  drops_le : g.drops + dropping ≤ g.issued

variable {g : Ledger} {inFlight dropping update : ℕ}

theorem sound_start (n : ℕ) : (start n).Sound 0 0 := by
  constructor <;> simp [start]

theorem Sound.issue (h : g.Sound inFlight dropping)
    (hquota : g.issued + update ≤ g.quota) :
    (g.issue update).Sound (inFlight + update) dropping := by
  obtain ⟨hissued, hle, hdrops⟩ := h
  constructor <;> simp only [Ledger.issue] <;> omega

/-- A leaving participant sets out with one arrival. -/
theorem Sound.issue_drop (h : g.Sound inFlight dropping)
    (hquota : g.issued + 1 ≤ g.quota) :
    (g.issue 1).Sound (inFlight + 1) (dropping + 1) := by
  obtain ⟨hissued, hle, hdrops⟩ := h
  constructor <;> simp only [Ledger.issue] <;> omega

theorem Sound.drop (h : g.Sound inFlight (dropping + 1)) :
    g.drop.Sound inFlight dropping := by
  obtain ⟨hissued, hle, hdrops⟩ := h
  constructor <;> simp only [Ledger.drop] <;> omega

theorem Sound.count (h : g.Sound (inFlight + update) dropping) :
    (g.count update).Sound inFlight dropping := by
  obtain ⟨hissued, hle, hdrops⟩ := h
  constructor <;> simp only [Ledger.count] <;> omega

/-- A phase that has counted its quota has nothing on the way. -/
theorem Sound.close (h : g.Sound inFlight dropping)
    (hfull : g.counted = g.quota) (hdropping : dropping ≤ inFlight) :
    inFlight = 0 ∧ g.close.Sound inFlight dropping := by
  obtain ⟨hissued, hle, hdrops⟩ := h
  have hzero : inFlight = 0 := by omega
  refine ⟨hzero, ?_⟩
  constructor <;> simp only [Ledger.close] <;> omega

theorem Sound.counted_le (h : g.Sound inFlight dropping) :
    g.counted + inFlight ≤ g.quota := by
  obtain ⟨hissued, hle, -⟩ := h
  omega

theorem Sound.drops_le_quota (h : g.Sound inFlight dropping) :
    g.drops ≤ g.quota := by
  obtain ⟨-, hle, hdrops⟩ := h
  omega

/-! ### A thread moves -/

section Moves

variable {ι α : Type*} [Fintype ι] [DecidableEq ι] {inFlight dropping : α → ℕ} {pc : ι → α}
  {t : ι} {p : α}

theorem Sound.move (h : g.Sound (total inFlight pc) (total dropping pc))
    (hflight : inFlight p = inFlight (pc t)) (hdropping : dropping p = dropping (pc t)) :
    g.Sound (total inFlight (Function.update pc t p))
      (total dropping (Function.update pc t p)) := by
  rwa [total_update_of_eq hflight, total_update_of_eq hdropping]

theorem Sound.move_issue (h : g.Sound (total inFlight pc) (total dropping pc))
    (hquota : g.issued + update ≤ g.quota) (hflight : inFlight p = inFlight (pc t) + update)
    (hdropping : dropping p = dropping (pc t)) :
    (g.issue update).Sound (total inFlight (Function.update pc t p))
      (total dropping (Function.update pc t p)) := by
  rw [total_update_of_add hflight, total_update_of_eq hdropping]
  exact h.issue hquota

theorem Sound.move_issue_drop (h : g.Sound (total inFlight pc) (total dropping pc))
    (hquota : g.issued + 1 ≤ g.quota) (hflight : inFlight p = inFlight (pc t) + 1)
    (hdropping : dropping p = dropping (pc t) + 1) :
    (g.issue 1).Sound (total inFlight (Function.update pc t p))
      (total dropping (Function.update pc t p)) := by
  rw [total_update_of_add hflight, total_update_of_add hdropping]
  exact h.issue_drop hquota

theorem Sound.move_drop (h : g.Sound (total inFlight pc) (total dropping pc))
    (hflight : inFlight p = inFlight (pc t)) (hdropping : dropping p + 1 = dropping (pc t)) :
    g.drop.Sound (total inFlight (Function.update pc t p))
      (total dropping (Function.update pc t p)) := by
  have htotal : total dropping pc = total dropping (Function.update pc t p) + 1 := by
    have hmove := total_update dropping pc t p
    omega
  rw [total_update_of_eq hflight]
  apply Sound.drop
  rwa [← htotal]

theorem Sound.move_count (h : g.Sound (total inFlight pc) (total dropping pc))
    (hflight : inFlight p + update = inFlight (pc t))
    (hdropping : dropping p = dropping (pc t)) :
    (g.count update).Sound (total inFlight (Function.update pc t p))
      (total dropping (Function.update pc t p)) := by
  have htotal : total inFlight pc = total inFlight (Function.update pc t p) + update := by
    have hmove := total_update inFlight pc t p
    omega
  rw [total_update_of_eq hdropping]
  apply Sound.count
  rwa [← htotal]

end Moves

/-- Count an arrival and close the phase if it was the last one. -/
def countAndClose (g : Ledger) (update : ℕ) : Ledger :=
  if g.CountsLast update then (g.count update).close else g.count update

end Ledger

/-- One arrival: its update, the phase it was issued to, and the phase it was
counted in. -/
structure Arrival where
  update : ℕ
  issuedIn : ℕ
  countedIn : ℕ

/-- The arrival was counted in the phase it was issued to.  An update of zero
is no arrival. -/
def Arrival.InPhase (a : Arrival) : Prop :=
  a.update = 0 ∨ a.issuedIn = a.countedIn

end Libhipcxx.Barrier
