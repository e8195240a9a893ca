import Mathlib.Data.Int.Log
import Mathlib.Data.Rat.Floor
import Mathlib.Tactic.Linarith

/-!
# Rounding to binary floating point

A `FloatFormat` says how many bits a significand has and how fine its grid gets near zero.
`FloatFormat.round` takes a rational to the nearest number of the format, and to the one with the
even significand when two are equally near. Numbers above the largest finite one are not cut off.
The rules: a number on the grid of the value stays on its side of the result (`le_round`,
`round_le`), and a number on its own grid is exact (`round_eq_self`).
-/

namespace MergeBot.Foundation

/-! ## The nearest integer -/

/-- The nearest integer, and of two equally near ones the even one. -/
def roundEven (x : Rat) : Int :=
  let fraction := x - ⌊x⌋
  if fraction < 1 / 2 then ⌊x⌋
  else if fraction = 1 / 2 ∧ ⌊x⌋ % 2 = 0 then ⌊x⌋
  else ⌊x⌋ + 1

variable {x : Rat} {n : Int}

/-- It is one of the two integers around the value. -/
theorem roundEven_cases (x : Rat) :
    roundEven x = ⌊x⌋ ∨ roundEven x = ⌊x⌋ + 1 ∧ (⌊x⌋ : Rat) < x := by
  rw [roundEven]
  split
  · exact .inl rfl
  rename_i half
  split
  · exact .inl rfl
  · exact .inr ⟨rfl, by linarith⟩

/-- It is not below an integer that is not above the value. -/
theorem le_roundEven (below : (n : Rat) ≤ x) : n ≤ roundEven x := by
  have floor := Int.le_floor.mpr below
  rcases roundEven_cases x with same | ⟨same, -⟩ <;> omega

/-- It is not above an integer that is not below the value. -/
theorem roundEven_le (above : x ≤ n) : roundEven x ≤ n := by
  have floor : ⌊x⌋ ≤ n := by exact_mod_cast (Int.floor_le x).trans above
  rcases roundEven_cases x with same | ⟨same, between⟩
  · omega
  · have strict : ⌊x⌋ < n := by exact_mod_cast between.trans_le above
    omega

/-! ## Formats -/

/-- The bits of a significand and the exponent of the least positive number. -/
structure FloatFormat where
  precision : Nat
  minExponent : Int

/-- The format of a `double`. -/
def binary64 : FloatFormat where
  precision := 53
  minExponent := -1074

namespace FloatFormat

variable (format : FloatFormat)

/-- The exponent of the last bit of a significand. -/
def exponent (x : Rat) : Int :=
  max (Int.log 2 |x| + 1 - format.precision) format.minExponent

/-- The distance of two neighbouring numbers around a value. -/
def spacing (x : Rat) : Rat := 2 ^ format.exponent x

/-- The number of the format for a value. -/
def round (x : Rat) : Rat := roundEven (x / format.spacing x) * format.spacing x

/-- A number is on the grid of a value. -/
def OnGrid (x y : Rat) : Prop := ∃ k : Int, y = k * format.spacing x

variable {format} {y : Rat}

/-- The spacing is positive. -/
theorem spacing_pos (x : Rat) : 0 < format.spacing x := zpow_pos (by norm_num) _

/-- Zero is on every grid. -/
theorem onGrid_zero (x : Rat) : format.OnGrid x 0 := ⟨0, by simp⟩

/-- Integers are on grids that are at most as wide as they are. -/
theorem onGrid_intCast (n : Int) (fine : format.exponent x ≤ 0) : format.OnGrid x n := by
  obtain ⟨k, depth⟩ := Int.eq_ofNat_of_zero_le (neg_nonneg.mpr fine)
  refine ⟨n * 2 ^ k, ?_⟩
  have cancel : (2 : Rat) ^ k * format.spacing x = 1 := by
    rw [spacing, ← zpow_natCast, ← zpow_add₀ (by norm_num), ← depth, neg_add_cancel, zpow_zero]
  push_cast
  rw [mul_assoc, cancel, mul_one]

/-- Numbers of the grid below a value stay below the result. -/
theorem le_round (grid : format.OnGrid x y) (below : y ≤ x) : y ≤ format.round x := by
  obtain ⟨k, rfl⟩ := grid
  have steps : (k : Rat) ≤ x / format.spacing x := (le_div_iff₀ (spacing_pos x)).mpr below
  exact mul_le_mul_of_nonneg_right (by exact_mod_cast le_roundEven steps) (spacing_pos x).le

/-- Numbers of the grid above a value stay above the result. -/
theorem round_le (grid : format.OnGrid x y) (above : x ≤ y) : format.round x ≤ y := by
  obtain ⟨k, rfl⟩ := grid
  have steps : x / format.spacing x ≤ k := (div_le_iff₀ (spacing_pos x)).mpr above
  exact mul_le_mul_of_nonneg_right (by exact_mod_cast roundEven_le steps) (spacing_pos x).le

/-- A number on its own grid is exact. -/
theorem round_eq_self (grid : format.OnGrid x x) : format.round x = x :=
  le_antisymm (round_le grid le_rfl) (le_round grid le_rfl)

/-- Values below `2 ^ precision` have a grid that holds the integers. -/
theorem exponent_nonpos (positive : x ≠ 0) (small : |x| < 2 ^ format.precision)
    (fine : format.minExponent ≤ 0) : format.exponent x ≤ 0 := by
  have log : Int.log 2 |x| < format.precision :=
    (Int.lt_zpow_iff_log_lt Nat.one_lt_two (abs_pos.mpr positive)).mp (by exact_mod_cast small)
  rw [exponent]
  omega

/-- Natural numbers below `2 ^ precision` are exact. -/
theorem round_natCast {n : Nat} (small : n < 2 ^ format.precision)
    (fine : format.minExponent ≤ 0) : format.round n = n := by
  rcases Nat.eq_zero_or_pos n with rfl | positive
  · exact round_eq_self (by simpa using onGrid_zero 0)
  · refine round_eq_self (onGrid_intCast n (exponent_nonpos ?_ ?_ fine))
    · exact_mod_cast positive.ne'
    · rw [Nat.abs_cast]
      exact_mod_cast small

/-- What is between 0 and 1 stays there. -/
theorem round_mem_unit (low : 0 ≤ x) (high : x ≤ 1) (precise : 0 < format.precision)
    (fine : format.minExponent ≤ 0) : 0 ≤ format.round x ∧ format.round x ≤ 1 := by
  rcases eq_or_ne x 0 with rfl | positive
  · rw [round_eq_self (onGrid_zero 0)]
    exact ⟨le_rfl, zero_le_one⟩
  have small : |x| < 2 ^ format.precision := by
    rw [abs_of_nonneg low]
    exact high.trans_lt (one_lt_pow₀ one_lt_two precise.ne')
  have grid := onGrid_intCast 1 (exponent_nonpos positive small fine)
  exact ⟨le_round (onGrid_zero x) low, by simpa using round_le grid (by simpa using high)⟩

end FloatFormat

/-- A third is rounded down. -/
example : binary64.round (1 / 3) = 6004799503160661 / 2 ^ 54 := by
  decide +kernel

end MergeBot.Foundation
