import Schemata.Number.Decimal
import Mathlib.Algebra.Order.Field.Power
import Mathlib.Data.Rat.Cast.Order
import Mathlib.Tactic.Positivity
import Mathlib.Tactic.Ring

/-!
Decimals as rational numbers. Rounding depends on the value of a decimal only, and the shortest decimal of a magnitude
rounds to that magnitude again.
-/
namespace Schemata
variable {f : BinaryFormat} {units num den k : Nat}

namespace BinaryFormat

/-- Rounding to the nearest integer sees a quotient, however it is expanded. -/
theorem nearest_mul (hk : 0 < k) : nearest (num * k) (den * k) = nearest num den := by
  simp only [nearest, Nat.mul_div_mul_right _ _ hk, Nat.mul_mod_mul_right, ← Nat.mul_assoc,
    Nat.mul_lt_mul_right hk]

theorem round_mul (hk : 0 < k) : f.round (num * k) (den * k) = f.round num den := by
  simp only [round, Nat.mul_div_mul_right _ _ hk]
  rw [Nat.mul_right_comm den k, nearest_mul hk]

/-- Equal quotients are rounded alike. -/
theorem round_congr {num' den' : Nat} (hden : 0 < den) (hden' : 0 < den') (h : num * den' = num' * den) :
    f.round num den = f.round num' den' := by
  rw [← round_mul hden', h, Nat.mul_comm den, round_mul hden]

/-- A multiple of the step is its own nearest one. -/
theorem round_one (h : f.grid units ∣ units) : f.round units 1 = units := by
  obtain ⟨q, hq⟩ := h
  have hstep : 0 < f.grid units := Nat.pow_pos Nat.two_pos
  have hround : f.round units 1 = nearest units (f.grid units) * f.grid units := by
    rw [round, Nat.div_one, Nat.one_mul]
  rw [hround]
  generalize f.grid units = step at hq hstep
  rw [hq, nearest, Nat.mul_div_cancel_left _ hstep, Nat.mul_mod_right, if_pos (by omega), Nat.mul_comm]

end BinaryFormat

/-- A magnitude of the 64-bit format lies on its own grid. -/
theorem FitsDouble.grid_dvd (h : FitsDouble units) : BinaryFormat.double.grid units ∣ units := by
  have hgrid : max (units.log2 + 1 - 53) 0 = units.log2 - 52 := by omega
  rw [BinaryFormat.grid, BinaryFormat.double, hgrid]
  exact h.2

namespace Decimal
variable {d e : Decimal} {scale : Int}

def value (d : Decimal) : ℚ :=
  d.digits * 10 ^ d.scale

/-- The units of a decimal as a quotient: the powers of ten with a positive exponent above, the others below. -/
theorem round_eq (f : BinaryFormat) (d : Decimal) :
    d.round f = f.round (d.digits * 10 ^ d.scale.toNat * unitsPerOne) (10 ^ (-d.scale).toNat) := by
  unfold round
  split
  · have hnone : (-d.scale).toNat = 0 := by omega
    rw [hnone]
    rfl
  · have hnone : d.scale.toNat = 0 := by omega
    rw [hnone, pow_zero, Nat.mul_one]
    rfl

theorem value_eq (d : Decimal) : d.value = d.digits * 10 ^ d.scale.toNat / 10 ^ (-d.scale).toNat := by
  rw [value, mul_div_assoc, ← zpow_natCast, ← zpow_natCast, ← zpow_sub₀ (by norm_num)]
  congr 2
  omega

/-- Decimals of one value are rounded alike. -/
theorem round_eq_of_value_eq (h : d.value = e.value) : d.round f = e.round f := by
  rw [value_eq, value_eq, div_eq_div_iff (by positivity) (by positivity)] at h
  rw [round_eq, round_eq]
  refine BinaryFormat.round_congr (by positivity) (by positivity) ?_
  have hcross : d.digits * 10 ^ d.scale.toNat * 10 ^ (-e.scale).toNat =
      e.digits * 10 ^ e.scale.toNat * 10 ^ (-d.scale).toNat := by exact_mod_cast h
  rw [Nat.mul_right_comm, hcross, Nat.mul_right_comm]

/-! ### The shortest decimal -/

theorem readsBack_iff : d.readsBack f units ↔ d.digits ≠ 0 ∧ d.round f = units := by
  simp [readsBack]

theorem readsBack_onGrid (h : onGrid f units scale = some d) : d.readsBack f units := by
  simp only [onGrid] at h
  split at h
  · cases h
  · rename_i hdown _
    exact Option.some.inj h ▸ hdown
  · rename_i hup
    exact Option.some.inj h ▸ hup
  · rename_i hdown hup
    split at h
    · exact Option.some.inj h ▸ hdown
    · exact Option.some.inj h ▸ hup
    · obtain rfl := Option.some.inj h
      split
      · exact hdown
      · exact hup

/-- Whatever the search finds reads back, unless it gives up and takes the exact decimal. -/
theorem search_cases (f : BinaryFormat) (units : Nat) (scale : Int) (tries : Nat) :
    (search f units scale tries).readsBack f units ∨ search f units scale tries = exact units := by
  induction tries generalizing scale with
  | zero => exact .inr rfl
  | succ tries ih =>
    rw [search]
    split
    · rename_i hd
      exact .inl (readsBack_onGrid hd)
    · exact ih (scale - 1)

theorem exact_digits_ne_zero (h : units ≠ 0) : (exact units).digits ≠ 0 := by
  simp only [exact, ne_eq, Nat.mul_eq_zero, h, false_or, Nat.pow_eq]
  positivity

/-- The exact decimal is rounded as the magnitude itself. -/
theorem exact_round (f : BinaryFormat) (units : Nat) : (exact units).round f = f.round units 1 := by
  have hscale : (-1074 : Int) = -((1074 : Nat) : Int) := rfl
  rw [round_eq, exact, hscale]
  unfold unitsPerOne
  -- No power is ever evaluated.
  generalize 1074 = k
  have hup : (-(k : Int)).toNat = 0 := by omega
  have hdown : (- -(k : Int)).toNat = k := by omega
  simp only [hup, hdown, Nat.pow_eq, pow_zero, Nat.mul_one]
  refine BinaryFormat.round_congr (by positivity) Nat.one_pos ?_
  rw [Nat.mul_one, Nat.mul_assoc, ← Nat.mul_pow]

theorem shortest_digits_ne_zero (f : BinaryFormat) (h : units ≠ 0) : (shortest f units).digits ≠ 0 := by
  rcases search_cases f units (startScale units) 24 with hback | hexact
  · exact (readsBack_iff.mp hback).1
  · rw [shortest, hexact]
    exact exact_digits_ne_zero h

/-- The shortest decimal of a magnitude on the grid of the width reads back. -/
theorem shortest_round (h : f.grid units ∣ units) : (shortest f units).round f = units := by
  rcases search_cases f units (startScale units) 24 with hback | hexact
  · exact (readsBack_iff.mp hback).2
  · rw [shortest, hexact, exact_round, BinaryFormat.round_one h]

end Decimal
end Schemata
