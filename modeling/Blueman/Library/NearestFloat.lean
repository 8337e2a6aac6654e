import Mathlib.Algebra.Ring.Nat
import Mathlib.Data.Nat.Find
import Mathlib.Data.Nat.Log
import Mathlib.Tactic.SplitIfs

/-!
# Rounding to the nearest float

The nonnegative floats with so many digits of significand, in units of the least
one, and the nearest of them to a quotient, ties to even. Rounding moves a value
by half a spacing at most, keeps the order and leaves a float alone; so the values
that are rounded below a float are those below a threshold.
-/

namespace Blueman.NearestFloat

set_option autoImplicit false

def roundHalfEven (numerator denominator : Nat) : Nat :=
  let quotient := numerator / denominator
  let twice := 2 * (numerator % denominator)
  if twice < denominator then quotient
  else if denominator < twice then quotient + 1
  else quotient + quotient % 2

/-- The distance of the floats in the binade of a value. -/
def spacing (precision value : Nat) : Nat := 2 ^ (Nat.log2 value - (precision - 1))

def nearest (precision numerator denominator : Nat) : Nat :=
  roundHalfEven numerator (denominator * spacing precision (numerator / denominator)) *
    spacing precision (numerator / denominator)

section

variable {numerator denominator : Nat}

theorem round_half_even_close (positive : 0 < denominator) :
    2 * numerator ≤ 2 * (roundHalfEven numerator denominator * denominator) + denominator ∧
      2 * (roundHalfEven numerator denominator * denominator) ≤ 2 * numerator + denominator := by
  have parts := Nat.div_add_mod numerator denominator
  have small := Nat.mod_lt numerator positive
  rw [Nat.mul_comm] at parts
  unfold roundHalfEven
  dsimp only
  split_ifs with below above
  · omega
  · rw [Nat.add_mul, Nat.one_mul]
    omega
  · rcases Nat.mod_two_eq_zero_or_one (numerator / denominator) with even | odd
    · rw [even, Nat.add_zero]
      omega
    · rw [odd, Nat.add_mul, Nat.one_mul]
      omega

theorem round_half_even_exact (quotient : Nat) (positive : 0 < denominator) :
    roundHalfEven (quotient * denominator) denominator = quotient := by
  unfold roundHalfEven
  rw [Nat.mul_mod_left, Nat.mul_div_cancel _ positive, if_pos positive]

theorem round_half_even_mono {larger : Nat} (order : numerator ≤ larger)
    (positive : 0 < denominator) :
    roundHalfEven numerator denominator ≤ roundHalfEven larger denominator := by
  by_contra crossed
  have apart := Nat.mul_le_mul_right denominator (Nat.lt_of_not_le crossed)
  rw [Nat.succ_mul] at apart
  have close := (@round_half_even_close numerator denominator positive).2
  have closeLarger := (@round_half_even_close larger denominator positive).1
  have same : numerator = larger := by omega
  rw [same] at crossed
  exact crossed (Nat.le_refl _)

end

theorem spacing_pos (precision value : Nat) : 0 < spacing precision value := Nat.two_pow_pos _

theorem spacing_dvd_pow {precision value exponent : Nat} (order : Nat.log2 value ≤ exponent) :
    spacing precision value ∣ 2 ^ exponent :=
  Nat.pow_dvd_pow 2 (by omega)

section

variable {precision numerator denominator : Nat} (positive : 0 < denominator)

include positive

theorem nearest_close :
    2 * numerator ≤ 2 * (denominator * nearest precision numerator denominator) +
        denominator * spacing precision (numerator / denominator) ∧
      2 * (denominator * nearest precision numerator denominator) ≤
        2 * numerator + denominator * spacing precision (numerator / denominator) := by
  have close := @round_half_even_close numerator _
    (Nat.mul_pos positive (spacing_pos precision (numerator / denominator)))
  rw [nearest, Nat.mul_left_comm denominator]
  exact close

theorem nearest_le {bound : Nat} (below : numerator ≤ denominator * bound)
    (multiple : spacing precision (numerator / denominator) ∣ bound) :
    nearest precision numerator denominator ≤ bound := by
  obtain ⟨quotient, rfl⟩ := multiple
  rw [Nat.mul_comm (spacing _ _), ← Nat.mul_assoc, Nat.mul_comm denominator, Nat.mul_assoc] at below
  have wide := Nat.mul_pos positive (spacing_pos precision (numerator / denominator))
  have rounded := round_half_even_mono below wide
  rw [round_half_even_exact _ wide] at rounded
  rw [nearest, Nat.mul_comm]
  exact Nat.mul_le_mul_left _ rounded

theorem le_nearest {bound : Nat} (above : denominator * bound ≤ numerator)
    (multiple : spacing precision (numerator / denominator) ∣ bound) :
    bound ≤ nearest precision numerator denominator := by
  obtain ⟨quotient, rfl⟩ := multiple
  rw [Nat.mul_comm (spacing _ _), ← Nat.mul_assoc, Nat.mul_comm denominator, Nat.mul_assoc] at above
  have wide := Nat.mul_pos positive (spacing_pos precision (numerator / denominator))
  have rounded := round_half_even_mono above wide
  rw [round_half_even_exact _ wide] at rounded
  rw [nearest, Nat.mul_comm (roundHalfEven _ _)]
  exact Nat.mul_le_mul_left _ rounded

theorem nearest_le_pow :
    nearest precision numerator denominator ≤ 2 ^ (Nat.log2 (numerator / denominator) + 1) := by
  apply nearest_le positive
  · have inside : numerator / denominator < 2 ^ (Nat.log2 (numerator / denominator) + 1) :=
      Nat.lt_log2_self
    rw [Nat.div_lt_iff_lt_mul positive, Nat.mul_comm] at inside
    exact Nat.le_of_lt inside
  · exact spacing_dvd_pow (Nat.le_succ _)

theorem pow_le_nearest (some : numerator / denominator ≠ 0) :
    2 ^ Nat.log2 (numerator / denominator) ≤ nearest precision numerator denominator := by
  apply le_nearest positive
  · have inside := Nat.log2_self_le some
    rw [Nat.le_div_iff_mul_le positive, Nat.mul_comm] at inside
    exact inside
  · exact spacing_dvd_pow (Nat.le_refl _)

theorem nearest_mono {larger : Nat} (order : numerator ≤ larger) :
    nearest precision numerator denominator ≤ nearest precision larger denominator := by
  have quotients : numerator / denominator ≤ larger / denominator := Nat.div_le_div_right order
  have binades : Nat.log2 (numerator / denominator) ≤ Nat.log2 (larger / denominator) := by
    rw [Nat.log2_eq_log_two, Nat.log2_eq_log_two]
    exact Nat.log_mono_right quotients
  rcases Nat.eq_or_lt_of_le binades with same | later
  · have together : spacing precision (numerator / denominator) =
        spacing precision (larger / denominator) := by rw [spacing, spacing, same]
    have wide := Nat.mul_pos positive (spacing_pos precision (larger / denominator))
    rw [nearest, nearest, together]
    exact Nat.mul_le_mul_right _ (round_half_even_mono order wide)
  · have some : larger / denominator ≠ 0 := by
      intro zero
      rw [zero] at later
      exact Nat.not_lt_zero _ later
    calc nearest precision numerator denominator
        ≤ 2 ^ (Nat.log2 (numerator / denominator) + 1) := nearest_le_pow positive
      _ ≤ 2 ^ Nat.log2 (larger / denominator) := Nat.pow_le_pow_right (by decide) later
      _ ≤ nearest precision larger denominator := pow_le_nearest positive some

end

theorem nearest_of_multiple {precision value : Nat} (multiple : spacing precision value ∣ value) :
    nearest precision value 1 = value := by
  apply Nat.le_antisymm
  · apply nearest_le Nat.one_pos
    · rw [Nat.one_mul]
    · rwa [Nat.div_one]
  · apply le_nearest Nat.one_pos
    · rw [Nat.one_mul]
    · rwa [Nat.div_one]

theorem nearest_multiple {precision numerator denominator : Nat} (positive : 0 < denominator) :
    spacing precision (nearest precision numerator denominator) ∣
      nearest precision numerator denominator := by
  rcases Nat.eq_or_lt_of_le (@nearest_le_pow precision numerator denominator positive) with
    top | inside
  · rw [top, spacing, Nat.log2_two_pow]
    exact Nat.pow_dvd_pow 2 (by omega)
  · have grid : spacing precision (numerator / denominator) ∣
        nearest precision numerator denominator := Nat.dvd_mul_left _ _
    refine Nat.dvd_trans (Nat.pow_dvd_pow 2 ?_) grid
    have binade : Nat.log2 (nearest precision numerator denominator) ≤
        Nat.log2 (numerator / denominator) := by
      by_cases zero : nearest precision numerator denominator = 0
      · rw [zero]
        exact Nat.zero_le _
      · exact Nat.le_of_lt_succ ((Nat.log2_lt zero).mpr inside)
    omega

theorem threshold_of_mono {value : Nat → Nat}
    (mono : ∀ left right, left ≤ right → value left ≤ value right) {bound reached : Nat}
    (reaches : bound ≤ value reached) :
    ∃ threshold, threshold ≤ reached ∧
      ∀ argument, value argument < bound ↔ argument < threshold := by
  have some : ∃ argument, bound ≤ value argument := ⟨reached, reaches⟩
  refine ⟨Nat.find some, Nat.find_min' some reaches, fun argument => ?_⟩
  constructor
  · intro below
    by_contra late
    have above := Nat.le_trans (Nat.find_spec some) (mono _ _ (Nat.le_of_not_lt late))
    exact Nat.not_lt_of_le above below
  · intro early
    exact Nat.lt_of_not_le (Nat.find_min some early)

end Blueman.NearestFloat
