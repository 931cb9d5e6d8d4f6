import Mathlib.Algebra.Order.AbsoluteValue.Basic
import Mathlib.Order.Bounds.Basic
import Mathlib.Tactic.Linarith
import Mathlib.Tactic.Positivity
import Mathlib.Tactic.Ring

/-!
# Rounding between neighbours

Rounding into a set only depends on the two values of the set next to the
number.  The lemmas below say when the lower and when the upper neighbour is
the greatest value below, the least value above or the nearest value.
-/

namespace Aburi.Lib

variable {K : Type} [Field K] [LinearOrder K] [IsStrictOrderedRing K]

/-- No value of the set is strictly between `low` and `high`.  The upper end
need not be a value itself. -/
structure Neighbours (values : Set K) (low high : K) : Prop where
  member : low ∈ values
  ordered : low < high
  gap : ∀ value ∈ values, value ≤ low ∨ high ≤ value

namespace Neighbours

variable {values : Set K} {low high number : K} (neighbours : Neighbours values low high)

include neighbours

theorem isGreatest_low (above : low ≤ number) (below : number < high) :
    IsGreatest {value ∈ values | value ≤ number} low := by
  constructor
  · exact ⟨neighbours.member, above⟩
  · rintro value ⟨member, atMost⟩
    rcases neighbours.gap value member with left | right
    · exact left
    · linarith

theorem isLeast_high (member : high ∈ values) (above : low < number) (below : number ≤ high) :
    IsLeast {value ∈ values | number ≤ value} high := by
  constructor
  · exact ⟨member, below⟩
  · rintro value ⟨isValue, atLeast⟩
    rcases neighbours.gap value isValue with left | right
    · linarith
    · exact right

theorem nearest_low (above : low ≤ number) (half : 2 * (number - low) ≤ high - low)
    {value : K} (member : value ∈ values) :
    |number - low| ≤ |number - value| ∧
      (|number - value| = |number - low| →
        value = low ∨ value = high ∧ 2 * (number - low) = high - low) := by
  have distance : |number - low| = number - low := abs_of_nonneg (by linarith)
  rcases neighbours.gap value member with left | right
  · have other : |number - value| = number - value := abs_of_nonneg (by linarith)
    rw [distance, other]
    refine ⟨by linarith, fun same => .inl (by linarith)⟩
  · have other : |number - value| = value - number := by
      rw [abs_sub_comm]
      exact abs_of_nonneg (by linarith [neighbours.ordered])
    rw [distance, other]
    refine ⟨by linarith, fun same => .inr ⟨by linarith, by linarith⟩⟩

theorem nearest_high (below : number ≤ high) (half : high - low ≤ 2 * (number - low))
    {value : K} (member : value ∈ values) :
    |number - high| ≤ |number - value| ∧
      (|number - value| = |number - high| →
        value = high ∨ value = low ∧ 2 * (number - low) = high - low) := by
  have distance : |number - high| = high - number := by
    rw [abs_sub_comm]
    exact abs_of_nonneg (by linarith)
  rcases neighbours.gap value member with left | right
  · have other : |number - value| = number - value :=
      abs_of_nonneg (by linarith [neighbours.ordered])
    rw [distance, other]
    refine ⟨by linarith, fun same => .inr ⟨by linarith, by linarith⟩⟩
  · have other : |number - value| = value - number := by
      rw [abs_sub_comm]
      exact abs_of_nonneg (by linarith)
    rw [distance, other]
    refine ⟨by linarith, fun same => .inl (by linarith)⟩

end Neighbours

/-- Magnitudes with at most `precision` bits whose last bit is worth at least
`2 ^ low` and at most `2 ^ high`. -/
def grid (precision : ℕ) (low high : ℤ) : Set ℚ :=
  {value | ∃ (significand : ℕ) (exponent : ℤ), significand < 2 ^ precision ∧
    low ≤ exponent ∧ exponent ≤ high ∧ value = significand * 2 ^ exponent}

section Grids

variable {precision : ℕ} {low high : ℤ}

theorem two_zpow_pos (exponent : ℤ) : (0 : ℚ) < 2 ^ exponent := zpow_pos (by norm_num) _

theorem grid_nonneg {value : ℚ} (member : value ∈ grid precision low high) : 0 ≤ value := by
  obtain ⟨significand, exponent, -, -, -, rfl⟩ := member
  exact mul_nonneg (Nat.cast_nonneg _) (two_zpow_pos exponent).le

theorem grid_lt {value : ℚ} (member : value ∈ grid precision low high) :
    value < 2 ^ (precision + high) := by
  obtain ⟨significand, exponent, small, -, atMost, rfl⟩ := member
  have bound : (significand : ℚ) < 2 ^ (precision : ℤ) := by exact_mod_cast small
  calc (significand : ℚ) * 2 ^ exponent
      < 2 ^ (precision : ℤ) * 2 ^ exponent := mul_lt_mul_of_pos_right bound (two_zpow_pos exponent)
    _ ≤ 2 ^ (precision : ℤ) * 2 ^ high :=
        mul_le_mul_of_nonneg_left (zpow_le_zpow_right₀ (by norm_num) atMost) (two_zpow_pos _).le
    _ = 2 ^ (precision + high) := (zpow_add₀ (by norm_num) _ _).symm

/-- Multiples of a unit that all grid values around them are multiples of. -/
theorem grid_gap {count : ℕ} {unit : ℤ}
    (fine : unit = low ∨ 2 ^ precision ≤ 2 * count) {value : ℚ}
    (member : value ∈ grid precision low high) :
    value ≤ count * 2 ^ unit ∨ (count + 1) * 2 ^ unit ≤ value := by
  obtain ⟨significand, exponent, small, atLeast, -, rfl⟩ := member
  rcases le_or_gt unit exponent with coarse | below
  · obtain ⟨shift, rfl⟩ : ∃ shift : ℕ, exponent = unit + shift :=
      ⟨(exponent - unit).toNat, by omega⟩
    have multiple : (significand : ℚ) * 2 ^ (unit + shift) =
        ((significand * 2 ^ shift : ℕ) : ℚ) * 2 ^ unit := by
      rw [zpow_add₀ (by norm_num), zpow_natCast]
      push_cast
      ring
    rw [multiple]
    rcases Nat.lt_or_ge count (significand * 2 ^ shift) with more | less
    · right
      refine mul_le_mul_of_nonneg_right ?_ (two_zpow_pos unit).le
      exact_mod_cast more
    · left
      refine mul_le_mul_of_nonneg_right ?_ (two_zpow_pos unit).le
      exact_mod_cast less
  · left
    have many : 2 ^ precision ≤ 2 * count := by
      rcases fine with same | many
      · omega
      · exact many
    have bound : (significand : ℚ) ≤ 2 * count := by
      exact_mod_cast small.le.trans many
    have step : (2 : ℚ) ^ exponent ≤ 2 ^ (unit - 1) := zpow_le_zpow_right₀ (by norm_num) (by omega)
    calc (significand : ℚ) * 2 ^ exponent
        ≤ 2 * count * 2 ^ (unit - 1) := mul_le_mul bound step (two_zpow_pos _).le (by positivity)
      _ = count * 2 ^ unit := by
          rw [zpow_sub_one₀ (by norm_num)]
          ring

theorem neighbours_grid {count : ℕ} {unit : ℤ} (small : count < 2 ^ precision)
    (atLeast : low ≤ unit) (atMost : unit ≤ high)
    (fine : unit = low ∨ 2 ^ precision ≤ 2 * count) :
    Neighbours (grid precision low high) (count * 2 ^ unit) ((count + 1) * 2 ^ unit) where
  member := ⟨count, unit, small, atLeast, atMost, rfl⟩
  ordered := mul_lt_mul_of_pos_right (by linarith) (two_zpow_pos unit)
  gap := fun _ member => grid_gap fine member

theorem grid_succ {count : ℕ} {unit : ℤ} (positive : 0 < precision)
    (small : count < 2 ^ precision) (atLeast : low ≤ unit) (atMost : unit ≤ high)
    (inside : count + 1 < 2 ^ precision ∨ unit < high) :
    ((count : ℚ) + 1) * 2 ^ unit ∈ grid precision low high := by
  rcases Nat.lt_or_ge (count + 1) (2 ^ precision) with below | carry
  · exact ⟨count + 1, unit, below, atLeast, atMost, by push_cast; rfl⟩
  · have full : count + 1 = 2 ^ precision := by omega
    obtain ⟨previous, rfl⟩ : ∃ previous, precision = previous + 1 := ⟨precision - 1, by omega⟩
    refine ⟨2 ^ previous, unit + 1, ?_, by omega, by omega, ?_⟩
    · exact Nat.pow_lt_pow_right (by norm_num) (Nat.lt_succ_self _)
    · have full' : ((count : ℚ) + 1) = 2 ^ (previous + 1) := by exact_mod_cast full
      rw [full', zpow_add_one₀ (by norm_num), pow_succ]
      push_cast
      ring

/-- A count that cannot be halved without leaving the grid. -/
def Reduced (precision : ℕ) (low : ℤ) (count : ℕ) (unit : ℤ) : Prop :=
  low ≤ unit ∧ (unit = low ∨ 2 ^ precision ≤ 2 * count)

theorem Reduced.count_eq {first second : ℕ} {firstUnit secondUnit : ℤ}
    (firstReduced : Reduced precision low first firstUnit)
    (secondReduced : Reduced precision low second secondUnit)
    (firstSmall : first < 2 ^ precision) (secondSmall : second < 2 ^ precision)
    (same : (first : ℚ) * 2 ^ firstUnit = second * 2 ^ secondUnit) : first = second := by
  -- the form with the larger unit is not reduced when the units differ
  have larger : ∀ {first second : ℕ} {unit : ℤ} {shift : ℕ},
      Reduced precision low first unit → Reduced precision low second (unit + shift) →
      first < 2 ^ precision → (first : ℚ) * 2 ^ unit = second * 2 ^ (unit + shift) →
      first = second := by
    intro first second unit shift firstReduced secondReduced firstSmall same
    rw [zpow_add₀ (by norm_num), zpow_natCast] at same
    have scaled : (first : ℚ) = second * 2 ^ shift := by
      have positive := two_zpow_pos unit
      apply mul_right_cancel₀ positive.ne'
      rw [same]
      ring
    have scaled' : first = second * 2 ^ shift := by exact_mod_cast scaled
    cases shift with
    | zero => simpa using scaled'
    | succ shift =>
      have many : 2 ^ precision ≤ 2 * second := by
        rcases secondReduced.2 with isLow | many
        · have := firstReduced.1
          omega
        · exact many
      have power := Nat.two_pow_pos shift
      rw [scaled', pow_succ] at firstSmall
      nlinarith
  rcases le_total firstUnit secondUnit with ordered | ordered
  · obtain ⟨shift, rfl⟩ : ∃ shift : ℕ, secondUnit = firstUnit + shift :=
      ⟨(secondUnit - firstUnit).toNat, by omega⟩
    exact larger firstReduced secondReduced firstSmall same
  · obtain ⟨shift, rfl⟩ : ∃ shift : ℕ, firstUnit = secondUnit + shift :=
      ⟨(firstUnit - secondUnit).toNat, by omega⟩
    exact (larger secondReduced firstReduced secondSmall same.symm).symm

end Grids

end Aburi.Lib
