import Mathlib.Data.Int.Basic
import Mathlib.Tactic.Ring

/-!
# Signed 32-bit words

A C `int` as an integer in `[-2^31, 2^31)`, with the two's complement
wrap-around the hardware gives an addition that leaves that range.
-/

namespace Word32

/-- The largest signed 32-bit value. -/
def intMax : ℤ := 2147483647

/-- Reduce an integer to the signed 32-bit value it wraps around to. -/
def wrap (x : ℤ) : ℤ := (x + 2147483648) % 4294967296 - 2147483648

/-- A sum that stays in range does not wrap. -/
theorem wrap_of_mem {x : ℤ} (hlo : -2147483648 ≤ x) (hhi : x ≤ intMax) : wrap x = x := by
  unfold wrap intMax at *
  omega

/-- A non-negative sum below `2^31` does not wrap. -/
theorem wrap_of_nonneg {x : ℤ} (hlo : 0 ≤ x) (hhi : x ≤ intMax) : wrap x = x :=
  wrap_of_mem (by omega) hhi

/-- A sum that passes `intMax` by less than `2^32` wraps once around. -/
theorem wrap_of_gt {x : ℤ} (hlo : intMax < x) (hhi : x ≤ intMax + 4294967296) :
    wrap x = x - 4294967296 := by
  unfold wrap intMax at *
  omega

end Word32
