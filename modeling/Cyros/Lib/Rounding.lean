import Mathlib.Algebra.Order.Floor.Div
import Mathlib.Algebra.Order.Round
import Mathlib.Data.Rat.Floor

/-!
# Rounded quotients of natural numbers

A time of `x` parts of which a second has `u` lasts `x / u` seconds, and `n` ticks of which it has `hz` last
`n / hz`.  The quotients that a program computes with its integer division, after adding one less than the divisor
or half of it, are the exact ones rounded up and to the nearest.
-/

namespace Cyros.Lib

variable {x u hz : ℕ}

/-- Rounded up: the least number of ticks that last at least as long. -/
theorem isLeast_ceil (hu : 0 < u) (hhz : 0 < hz) :
    IsLeast {n : ℕ | (x : ℚ) / u ≤ (n : ℚ) / hz} ((x * hz + u - 1) / u) := by
  have hlast : ∀ n : ℕ, (x : ℚ) / u ≤ (n : ℚ) / hz ↔ x * hz ≤ u * n := by
    intro n
    rw [div_le_div_iff₀ (by exact_mod_cast hu) (by exact_mod_cast hhz), mul_comm (n : ℚ)]
    exact_mod_cast Iff.rfl
  rw [← Nat.ceilDiv_eq_add_pred_div]
  constructor
  · exact (hlast _).2 ((ceilDiv_le_iff_le_mul hu).1 le_rfl)
  · intro n hn
    exact (ceilDiv_le_iff_le_mul hu).2 ((hlast n).1 hn)

/-- Rounded up on the way in and to the nearest on the way out, a time is what it was, where a tick is short. -/
theorem ceil_round_trip (hu : 0 < u) (hhz : 2 * u ≤ hz + 1) : ((x * hz + u - 1) / u * u + hz / 2) / hz = x := by
  obtain ⟨r, hr, hq⟩ : ∃ r < u, (x * hz + u - 1) / u * u = x * hz + r := by
    have hdiv := Nat.div_add_mod' (x * hz + u - 1) u
    have hmod := Nat.mod_lt (x * hz + u - 1) hu
    exact ⟨u - 1 - (x * hz + u - 1) % u, by omega, by omega⟩
  rw [hq, add_assoc, Nat.add_comm, Nat.add_mul_div_right _ _ (by omega), Nat.div_eq_of_lt (by omega), zero_add]

end Cyros.Lib
