import Mathlib.Data.Int.Notation
import Mathlib.Data.Nat.Notation

/-!
# Polling

`__libcpp_thread_poll_with_backoff` polls a condition.  After a number of polls
it looks at the clock between one poll and the next.
-/

namespace Libhipcxx.Wait

/-- `_LIBCUDACXX_POLLING_COUNT`. -/
def pollingCount : ℕ := 16

/-- Whether the loop returns `false` after a poll.  A maximum of zero means
that there is none. -/
def pollExpired (count : ℕ) (max elapsed : ℤ) : Bool :=
  if count < pollingCount then false else max ≠ 0 && max < elapsed

theorem pollExpired_iff {count : ℕ} {max elapsed : ℤ} :
    pollExpired count max elapsed = true ↔
      pollingCount ≤ count ∧ max ≠ 0 ∧ max < elapsed := by
  rw [pollExpired]
  split
  · rename_i hlt
    simp [Nat.not_le.mpr hlt]
  · rename_i hle
    simp [Nat.not_lt.mp hle]

/-- `__count` after a poll. -/
def pollCount (count : ℕ) : ℕ :=
  if count < pollingCount then count + 1 else count

theorem pollCount_min (j : ℕ) :
    pollCount (min j pollingCount) = min (j + 1) pollingCount := by
  rw [pollCount]
  split <;> omega

end Libhipcxx.Wait
