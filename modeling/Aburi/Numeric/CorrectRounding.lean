import Aburi.Numeric.FloatValues

/-!
# Correct rounding

What it means that a result is the correctly rounded value of a rational
number, and that the rounding routine meets it at every boundary of a format.
-/

namespace Aburi.Numeric

open Aburi.Lib Nat
open Bool (false_eq_true)

/-- The numbers with an encoding in a format. -/
def finiteValues (format : FloatFormat) : Set ℚ :=
  {number | ∃ value : FloatValue, value.semantics = format ∧ value.IsFinite ∧
    value.toRat = number}

/-- Half a unit above the largest finite value. -/
def overflowThreshold (fmt : FloatFormatDescriptor) : ℚ :=
  (2 ^ (fmt.precision + 1) - 1) * 2 ^ (fmt.highestExponent - 1)

/-- The least value at or above a number, or infinity above all values. -/
def RoundsUpward (format : FloatFormat) (number : ℚ) (value : FloatValue) : Prop :=
  value.IsFinite ∧ IsLeast {other ∈ finiteValues format | number ≤ other} value.toRat ∨
    value = infinity format false ∧ ∀ other ∈ finiteValues format, other < number

def RoundsDownward (format : FloatFormat) (number : ℚ) (value : FloatValue) : Prop :=
  value.IsFinite ∧ IsGreatest {other ∈ finiteValues format | other ≤ number} value.toRat ∨
    value = infinity format true ∧ ∀ other ∈ finiteValues format, number < other

def RoundsToZero (format : FloatFormat) (number : ℚ) (value : FloatValue) : Prop :=
  value.IsFinite ∧
    if number < 0 then IsLeast {other ∈ finiteValues format | number ≤ other} value.toRat
    else IsGreatest {other ∈ finiteValues format | other ≤ number} value.toRat

/-- The nearest value; `tie` decides when another value is as near.  From the
threshold on the nearest value is infinity. -/
def RoundsToNearest (format : FloatFormat) (fmt : FloatFormatDescriptor) (number : ℚ)
    (value : FloatValue) (tie : ℚ → Prop) : Prop :=
  if |number| < overflowThreshold fmt then
    value.IsFinite ∧ ∀ other ∈ finiteValues format,
      |number - value.toRat| ≤ |number - other| ∧
        (|number - other| = |number - value.toRat| → other = value.toRat ∨ tie other)
  else value = infinity format (decide (number < 0))

def RoundsTo (format : FloatFormat) (fmt : FloatFormatDescriptor) (number : ℚ)
    (value : FloatValue) : RoundingMode → Prop
  | .nearestTiesToEven =>
    RoundsToNearest format fmt number value fun _ => Even (decode value).significand
  | .nearestTiesAway =>
    RoundsToNearest format fmt number value fun other => |other| < |value.toRat|
  | .towardZero => RoundsToZero format number value
  | .towardPositive => RoundsUpward format number value
  | .towardNegative => RoundsDownward format number value

/-- A result that is the correctly rounded value of a number, with
`zeroNegative` the sign when the number is zero. -/
structure CorrectlyRounded (format : FloatFormat) (fmt : FloatFormatDescriptor)
    (rounding : RoundingMode) (number : ℚ) (zeroNegative : Bool) (result : FloatResult) :
    Prop where
  error : result.error = .none
  semantics : result.value.semantics = format
  canonical : result.value.canonical = true
  rounds : RoundsTo format fmt number result.value rounding
  sign : (decode result.value).negative = if number = 0 then zeroNegative else decide (number < 0)
  inexact : result.status.inexact = true ↔ ¬ (result.value.IsFinite ∧ result.value.toRat = number)

section Signs

variable {format : FloatFormat} {fmt : FloatFormatDescriptor}

/-- The magnitudes of a format. -/
abbrev FloatFormatDescriptor.grid (fmt : FloatFormatDescriptor) : Set ℚ :=
  Lib.grid fmt.precision fmt.lowestExponent fmt.highestExponent

variable (known : descriptor format = some fmt)

include known

theorem abs_mem_grid {number : ℚ} (member : number ∈ finiteValues format) :
    |number| ∈ fmt.grid := by
  obtain ⟨value, semantics, finite, rfl⟩ := member
  obtain ⟨magnitude, onGrid, isSigned⟩ := finite.onGrid known semantics
  have nonneg := grid_nonneg onGrid
  rw [isSigned, signed]
  split
  · rw [abs_neg, abs_of_nonneg nonneg]
    exact onGrid
  · rw [abs_of_nonneg nonneg]
    exact onGrid

omit known in
/-- Finite values stay below the threshold. -/
theorem grid_lt_threshold {magnitude : ℚ} (member : magnitude ∈ fmt.grid) :
    magnitude ≤ (2 ^ fmt.precision - 1) * 2 ^ fmt.highestExponent ∧
      magnitude < overflowThreshold fmt := by
  have last : magnitude ≤ (2 ^ fmt.precision - 1) * 2 ^ fmt.highestExponent := by
    obtain ⟨significand, exponent, small, -, atMost, rfl⟩ := member
    have bound : (significand : ℚ) ≤ 2 ^ fmt.precision - 1 := by
      have atMost : (significand : ℚ) + 1 ≤ 2 ^ fmt.precision := by exact_mod_cast small
      linarith
    exact mul_le_mul bound (zpow_le_zpow_right₀ (by norm_num) atMost) (two_zpow_pos _).le
      (le_trans (cast_nonneg _) bound)
  refine ⟨last, last.trans_lt ?_⟩
  rw [overflowThreshold, zpow_sub_one₀ (by norm_num), pow_succ]
  have positive := two_zpow_pos fmt.highestExponent
  nlinarith

variable {negative : Bool} {magnitude chosen : ℚ} {value : FloatValue}

omit known in
theorem abs_signed (nonneg : 0 ≤ magnitude) : |signed negative magnitude| = magnitude := by
  rw [signed]
  split
  · rw [abs_neg, abs_of_nonneg nonneg]
  · exact abs_of_nonneg nonneg

theorem rounds_inward (semantics : value.semantics = format) (finite : value.IsFinite)
    (isChosen : value.toRat = signed negative chosen)
    (greatest : IsGreatest {other ∈ fmt.grid | other ≤ magnitude} chosen) :
    if negative then
      IsLeast {other ∈ finiteValues format | signed negative magnitude ≤ other} value.toRat
    else
      IsGreatest {other ∈ finiteValues format | other ≤ signed negative magnitude} value.toRat := by
  have below := greatest.1.2
  have nonneg := grid_nonneg greatest.1.1
  cases negative with
  | true | false =>
    simp only [signed, if_true, false_eq_true, if_false] at isChosen ⊢
    refine ⟨⟨⟨value, semantics, finite, rfl⟩, by linarith⟩, ?_⟩
    rintro other ⟨member, above⟩
    have isAbs := abs_cases other
    by_cases inside : |other| ≤ magnitude
    · have atMost := greatest.2 ⟨abs_mem_grid known member, inside⟩
      grind
    · grind

theorem rounds_outward (semantics : value.semantics = format) (finite : value.IsFinite)
    (positive : 0 < magnitude) (isChosen : value.toRat = signed negative chosen)
    (least : IsLeast {other ∈ fmt.grid | magnitude ≤ other} chosen) :
    if negative then
      IsGreatest {other ∈ finiteValues format | other ≤ signed negative magnitude} value.toRat
    else
      IsLeast {other ∈ finiteValues format | signed negative magnitude ≤ other} value.toRat := by
  have above := least.1.2
  cases negative with
  | true | false =>
    simp only [signed, if_true, false_eq_true, if_false] at isChosen ⊢
    refine ⟨⟨⟨value, semantics, finite, rfl⟩, by linarith⟩, ?_⟩
    rintro other ⟨member, below⟩
    have isAbs := abs_cases other
    have atLeast := least.2 ⟨abs_mem_grid known member, by grind⟩
    grind

omit known in
/-- A value of the other sign is farther away than its magnitude. -/
theorem distance_signed (positive : 0 < magnitude) (other : ℚ) :
    |magnitude - (|other|)| ≤ |signed negative magnitude - other| ∧
      (|signed negative magnitude - other| = |magnitude - (|other|)| →
        other = signed negative (|other|)) := by
  have same := @abs_signed negative _ positive.le
  constructor
  · calc |magnitude - (|other|)| = |(|signed negative magnitude|) - (|other|)| := by rw [same]
      _ ≤ |signed negative magnitude - other| := abs_abs_sub_abs_le _ _
  · intro equal
    cases negative with
    | true =>
      simp only [signed, if_true] at equal ⊢
      rcases le_or_gt other 0 with nonpos | isPositive
      · rw [abs_of_nonpos nonpos, neg_neg]
      · rw [abs_of_pos isPositive, abs_of_neg (by linarith : -magnitude - other < 0)] at equal
        rcases abs_cases (magnitude - other) with ⟨isAbs, -⟩ | ⟨isAbs, -⟩ <;>
          rw [isAbs] at equal <;> linarith
    | false =>
      simp only [signed, false_eq_true, if_false] at equal ⊢
      rcases le_or_gt 0 other with nonneg | isNegative
      · rw [abs_of_nonneg nonneg]
      · rw [abs_of_neg isNegative, abs_of_pos (by linarith : 0 < magnitude - other)] at equal
        rcases abs_cases (magnitude - -other) with ⟨isAbs, -⟩ | ⟨isAbs, -⟩ <;>
          rw [isAbs] at equal <;> linarith

theorem rounds_nearest (finite : value.IsFinite) (positive : 0 < magnitude)
    (small : magnitude < overflowThreshold fmt)
    (isChosen : value.toRat = signed negative chosen) {tie : ℚ → Prop}
    (nearest : ∀ other ∈ fmt.grid, |magnitude - chosen| ≤ |magnitude - other| ∧
      (|magnitude - other| = |magnitude - chosen| → other = chosen ∨ tie other)) :
    RoundsToNearest format fmt (signed negative magnitude) value fun other => tie (|other|) := by
  rw [RoundsToNearest, abs_signed positive.le, if_pos small]
  refine ⟨finite, fun other member => ?_⟩
  have onGrid := abs_mem_grid known member
  obtain ⟨atLeast, ties⟩ := nearest _ onGrid
  obtain ⟨farther, sameSign⟩ := @distance_signed negative _ positive other
  have distance : |signed negative magnitude - value.toRat| = |magnitude - chosen| := by
    rw [isChosen, signed, signed]
    split
    · rw [neg_sub_neg, abs_sub_comm]
    · rfl
  rw [distance]
  refine ⟨atLeast.trans farther, fun equal => ?_⟩
  have close : |magnitude - (|other|)| = |magnitude - chosen| :=
    le_antisymm (farther.trans equal.le) atLeast
  rcases ties close with isSame | tied
  · left
    rw [sameSign (equal.trans close.symm), isSame, isChosen]
  · exact .inr tied

omit known in
theorem finite_mem (semantics : value.semantics = format) (finite : value.IsFinite) :
    value.toRat ∈ finiteValues format := ⟨value, semantics, finite, rfl⟩

theorem roundsTo_exact (semantics : value.semantics = format) (finite : value.IsFinite)
    (rounding : RoundingMode) : RoundsTo format fmt value.toRat value rounding := by
  have member := finite_mem semantics finite
  have small := (grid_lt_threshold (abs_mem_grid known member)).2
  have nearest : ∀ tie, RoundsToNearest format fmt value.toRat value tie := by
    intro tie
    rw [RoundsToNearest, if_pos small]
    refine ⟨finite, fun other isValue => ?_⟩
    rw [sub_self, abs_zero]
    refine ⟨abs_nonneg _, fun equal => .inl ?_⟩
    rw [abs_eq_zero] at equal
    linarith
  have least : IsLeast {other ∈ finiteValues format | value.toRat ≤ other} value.toRat :=
    ⟨⟨member, le_refl _⟩, fun _ other => other.2⟩
  have greatest : IsGreatest {other ∈ finiteValues format | other ≤ value.toRat} value.toRat :=
    ⟨⟨member, le_refl _⟩, fun _ other => other.2⟩
  cases rounding with
  | nearestTiesToEven | nearestTiesAway => exact nearest _
  | towardZero =>
    refine ⟨finite, ?_⟩
    split
    · exact least
    · exact greatest
  | towardPositive => exact .inl ⟨finite, least⟩
  | towardNegative => exact .inl ⟨finite, greatest⟩

end Signs

/-- When a mode takes the upper of two neighbours for a number `part` of the way
between them. -/
def RoundsAway (rounding : RoundingMode) (negative : Bool) (count : ℕ) (part : ℚ) : Prop :=
  match rounding with
  | .nearestTiesToEven => 1 / 2 < part ∨ part = 1 / 2 ∧ Odd count
  | .nearestTiesAway => 1 / 2 ≤ part
  | .towardZero => False
  | .towardPositive => negative = false
  | .towardNegative => negative = true

/-- A magnitude strictly between two multiples of a unit next to each other. -/
structure Between (fmt : FloatFormatDescriptor) (magnitude : ℚ) (count : ℕ) (part : ℚ)
    (unit : ℤ) : Prop where
  isMagnitude : magnitude = (count + part) * 2 ^ unit
  positive : 0 < part
  part_lt : part < 1
  atLeast : fmt.lowestExponent ≤ unit
  atMost : unit ≤ fmt.highestExponent
  small : count < 2 ^ fmt.precision
  fine : unit = fmt.lowestExponent ∨ 2 ^ fmt.precision ≤ 2 * count

namespace Between

variable {format : FloatFormat} {fmt : FloatFormatDescriptor} {magnitude part : ℚ}
  {count : ℕ} {unit : ℤ} (between : Between fmt magnitude count part unit)

include between

theorem neighbours : Neighbours fmt.grid (count * 2 ^ unit) ((count + 1) * 2 ^ unit) :=
  neighbours_grid between.small between.atLeast between.atMost between.fine

theorem offset : magnitude - count * 2 ^ unit = part * 2 ^ unit := by
  rw [between.isMagnitude]
  ring

omit between in
theorem width : ((count : ℚ) + 1) * 2 ^ unit - count * 2 ^ unit = 2 ^ unit := by ring

theorem above : count * 2 ^ unit < magnitude := by
  have offset := between.offset
  have positive := mul_pos between.positive (two_zpow_pos unit)
  linarith

theorem below : magnitude < (count + 1) * 2 ^ unit := by
  rw [between.isMagnitude]
  exact mul_lt_mul_of_pos_right (by linarith [between.part_lt]) (two_zpow_pos unit)

theorem magnitude_pos : 0 < magnitude :=
  lt_of_le_of_lt (mul_nonneg (cast_nonneg _) (two_zpow_pos unit).le) between.above

theorem half_le (half : part ≤ 1 / 2) :
    2 * (magnitude - count * 2 ^ unit) ≤ (count + 1) * 2 ^ unit - count * 2 ^ unit := by
  rw [between.offset, width]
  nlinarith [two_zpow_pos unit]

theorem le_half (half : 1 / 2 ≤ part) :
    (count + 1) * 2 ^ unit - count * 2 ^ unit ≤ 2 * (magnitude - count * 2 ^ unit) := by
  rw [between.offset, width]
  nlinarith [two_zpow_pos unit]

theorem eq_half (half : 2 * (magnitude - count * 2 ^ unit) =
    (count + 1) * 2 ^ unit - count * 2 ^ unit) : part = 1 / 2 := by
  rw [between.offset, width] at half
  have positive := two_zpow_pos unit
  have cancel : (2 * part - 1) * 2 ^ unit = 0 := by linarith
  rcases mul_eq_zero.mp cancel with isHalf | isZero
  · linarith
  · exact absurd isZero positive.ne'

variable (known : descriptor format = some fmt)

include known

section

variable (inside : count + 1 < 2 ^ fmt.precision ∨ unit < fmt.highestExponent)
include inside

/-- The upper neighbour is a value, or the count is the largest of all. -/
theorem succ_mem :
    ((count : ℚ) + 1) * 2 ^ unit ∈ fmt.grid := by
  have precision := (formatFacts known).precision
  exact grid_succ (by omega) between.small between.atLeast between.atMost inside

theorem lt_threshold :
    magnitude < overflowThreshold fmt :=
  between.below.trans (grid_lt_threshold (between.succ_mem known inside)).2

end

section

variable (outside : ¬ (count + 1 < 2 ^ fmt.precision ∨ unit < fmt.highestExponent))
include outside

omit known in
theorem last_eq :
    count + 1 = 2 ^ fmt.precision ∧ unit = fmt.highestExponent := by
  have small := between.small
  have atMost := between.atMost
  omega

theorem threshold_eq :
    overflowThreshold fmt = (count + 1 / 2) * 2 ^ unit ∧ Odd count := by
  obtain ⟨full, highest⟩ := between.last_eq outside
  have precision := (formatFacts known).precision
  constructor
  · have full' : (count : ℚ) = 2 ^ fmt.precision - 1 := by
      have cast : ((count + 1 : ℕ) : ℚ) = ((2 ^ fmt.precision : ℕ) : ℚ) := by rw [full]
      push_cast at cast
      linarith
    rw [overflowThreshold, highest, full', zpow_sub_one₀ (by norm_num), pow_succ]
    ring
  · rw [← not_even_iff_odd]
    intro even
    have odd : Odd (count + 1) := even.add_one
    rw [full] at odd
    exact absurd ((Nat.even_pow.mpr ⟨even_two, by omega⟩)) (Nat.not_even_iff_odd.mpr odd)

end

variable {negative : Bool} {rounding : RoundingMode} {value : FloatValue}

theorem rounds_down (semantics : value.semantics = format) (finite : value.IsFinite)
    (isLower : value.toRat = signed negative (count * 2 ^ unit))
    (even : Even count → Even (decode value).significand)
    (stays : ¬ RoundsAway rounding negative count part) :
    RoundsTo format fmt (signed negative magnitude) value rounding := by
  have positive := between.magnitude_pos
  have greatest := between.neighbours.isGreatest_low between.above.le between.below
  have inward := rounds_inward known semantics finite isLower greatest
  -- a nearest mode does not stay at the largest value from the threshold on
  have belowThreshold : (part ≤ 1 / 2) → (Odd count → part < 1 / 2) →
      magnitude < overflowThreshold fmt := by
    intro half oddHalf
    by_cases inside : count + 1 < 2 ^ fmt.precision ∨ unit < fmt.highestExponent
    · exact between.lt_threshold known inside
    · obtain ⟨isThreshold, odd⟩ := between.threshold_eq known inside
      rw [isThreshold, between.isMagnitude]
      exact mul_lt_mul_of_pos_right (by linarith [oddHalf odd]) (two_zpow_pos unit)
  cases rounding with
  | nearestTiesToEven =>
    simp only [RoundsAway, not_or, not_lt, not_and] at stays
    refine @rounds_nearest _ _ known _ _ _ _ finite positive
      (belowThreshold stays.1 fun odd => lt_of_le_of_ne stays.1 fun half => stays.2 half odd)
      isLower (fun _ => Even (decode value).significand) fun other member => ?_
    obtain ⟨nearer, ties⟩ := between.neighbours.nearest_low between.above.le
      (between.half_le stays.1) member
    refine ⟨nearer, fun equal => ?_⟩
    rcases ties equal with same | ⟨-, middle⟩
    · exact .inl same
    · right
      apply even
      exact Nat.not_odd_iff_even.mp (stays.2 (between.eq_half middle))
  | nearestTiesAway =>
    simp only [RoundsAway, not_le] at stays
    refine @rounds_nearest _ _ known _ _ _ _ finite positive
      (belowThreshold stays.le fun _ => stays) isLower
      (fun other => other < |value.toRat|) fun other member => ?_
    obtain ⟨nearer, ties⟩ := between.neighbours.nearest_low between.above.le
      (between.half_le stays.le) member
    refine ⟨nearer, fun equal => ?_⟩
    rcases ties equal with same | ⟨-, middle⟩
    · exact .inl same
    · exact absurd (between.eq_half middle) stays.ne
  | towardZero =>
    refine ⟨finite, ?_⟩
    cases negative with
    | true =>
      rw [if_pos (by simp only [signed, if_true]; linarith)]
      exact inward
    | false =>
      rw [if_neg (by simp only [signed, false_eq_true, if_false]; linarith)]
      exact inward
  | towardPositive =>
    simp only [RoundsAway, Bool.not_eq_false] at stays
    subst stays
    exact .inl ⟨finite, inward⟩
  | towardNegative =>
    simp only [RoundsAway, Bool.not_eq_true] at stays
    subst stays
    exact .inl ⟨finite, inward⟩

theorem rounds_up (semantics : value.semantics = format) (finite : value.IsFinite)
    (isUpper : value.toRat = signed negative ((count + 1) * 2 ^ unit))
    (inside : count + 1 < 2 ^ fmt.precision ∨ unit < fmt.highestExponent)
    (even : Odd count → Even (decode value).significand)
    (away : RoundsAway rounding negative count part) :
    RoundsTo format fmt (signed negative magnitude) value rounding := by
  have positive := between.magnitude_pos
  have member := between.succ_mem known inside
  have small := between.lt_threshold known inside
  have least := between.neighbours.isLeast_high member between.above between.below.le
  have outward := rounds_outward known semantics finite positive isUpper least
  cases rounding with
  | nearestTiesToEven =>
    have half : 1 / 2 ≤ part := by
      rcases away with more | ⟨middle, -⟩
      · exact more.le
      · exact middle.ge
    refine @rounds_nearest _ _ known _ _ _ _ finite positive small isUpper
      (fun _ => Even (decode value).significand) fun other isValue => ?_
    obtain ⟨nearer, ties⟩ := between.neighbours.nearest_high between.below.le
      (between.le_half half) isValue
    refine ⟨nearer, fun equal => ?_⟩
    rcases ties equal with same | ⟨-, middle⟩
    · exact .inl same
    · right
      apply even
      rcases away with more | ⟨-, odd⟩
      · exact absurd (between.eq_half middle) more.ne'
      · exact odd
  | nearestTiesAway =>
    refine @rounds_nearest _ _ known _ _ _ _ finite positive small isUpper
      (fun other => other < |value.toRat|) fun other isValue => ?_
    obtain ⟨nearer, ties⟩ := between.neighbours.nearest_high between.below.le
      (between.le_half away) isValue
    refine ⟨nearer, fun equal => ?_⟩
    rcases ties equal with same | ⟨lower, -⟩
    · exact .inl same
    · right
      rw [isUpper, abs_signed (grid_nonneg member), lower]
      exact between.neighbours.ordered
  | towardZero => exact away.elim
  | towardPositive =>
    have isPositive : negative = false := away
    subst isPositive
    exact .inl ⟨finite, outward⟩
  | towardNegative =>
    have isNegative : negative = true := away
    subst isNegative
    exact .inl ⟨finite, outward⟩

end Between

section Ends

variable {format : FloatFormat} {fmt : FloatFormatDescriptor}
  (known : descriptor format = some fmt) {magnitude : ℚ} (negative : Bool)
  (control : FloatControl)

omit known in
theorem sign_signed (positive : 0 < magnitude) (zeroNegative : Bool) :
    (if signed negative magnitude = 0 then zeroNegative
      else decide (signed negative magnitude < 0)) = negative := by
  cases negative with
  | true =>
    simp only [signed, if_true]
    rw [if_neg (by linarith), decide_eq_true_iff]
    linarith
  | false =>
    simp only [signed, false_eq_true, if_false]
    rw [if_neg (by linarith), decide_eq_false_iff_not]
    linarith

include known

theorem maximumFinite_greatest :
    ((2 ^ fmt.precision - 1 : ℕ) : ℚ) * 2 ^ fmt.highestExponent ∈ fmt.grid ∧
      ∀ other ∈ fmt.grid, other ≤ ((2 ^ fmt.precision - 1 : ℕ) : ℚ) * 2 ^ fmt.highestExponent := by
  have positive := Nat.two_pow_pos fmt.precision
  constructor
  · exact ⟨_, _, by omega, (formatFacts known).lowest_le_highest, le_refl _, rfl⟩
  · intro other member
    have last := (grid_lt_threshold member).1
    rw [cast_sub (by omega)]
    push_cast
    exact last

theorem infinity_rounds
    (past : ∀ other ∈ fmt.grid, other < magnitude) :
    if negative then RoundsDownward format (signed negative magnitude) (infinity format negative)
    else RoundsUpward format (signed negative magnitude) (infinity format negative) := by
  cases negative with
  | true =>
    refine .inr ⟨rfl, fun other member => ?_⟩
    simp only [signed, if_true]
    have bound := past _ (abs_mem_grid known member)
    linarith [neg_abs_le other]
  | false =>
    refine .inr ⟨rfl, fun other member => ?_⟩
    simp only [signed, false_eq_true, if_false]
    have bound := past _ (abs_mem_grid known member)
    linarith [le_abs_self other]

theorem overflowResult_rounds (positive : 0 < magnitude)
    (past : ∀ other ∈ fmt.grid, other < magnitude)
    (threshold : control.rounding = .nearestTiesToEven ∨ control.rounding = .nearestTiesAway →
      overflowThreshold fmt ≤ magnitude) :
    RoundsTo format fmt (signed negative magnitude)
      (overflowResult format negative control).value control.rounding := by
  obtain ⟨member, last⟩ := maximumFinite_greatest known
  have stands := stands_maximumFinite known negative
  have greatest : IsGreatest {other ∈ fmt.grid | other ≤ magnitude}
      (((2 ^ fmt.precision - 1 : ℕ) : ℚ) * 2 ^ fmt.highestExponent) :=
    ⟨⟨member, (past _ member).le⟩, fun other inside => last other inside.1⟩
  have inward := rounds_inward known stands.semantics stands.finite stands.toRat greatest
  have outward := infinity_rounds known negative past
  have isInfinity : ∀ tie, overflowThreshold fmt ≤ magnitude →
      RoundsToNearest format fmt (signed negative magnitude) (infinity format negative) tie := by
    intro tie atLeast
    rw [RoundsToNearest, abs_signed positive.le, if_neg atLeast.not_gt]
    have sign := sign_signed negative positive false
    rw [if_neg] at sign
    · rw [sign]
    · rw [signed]
      split <;> linarith
  rw [overflowResult]
  obtain ⟨rounding, tininess⟩ := control
  cases rounding with
  | nearestTiesToEven => exact isInfinity _ (threshold (.inl rfl))
  | nearestTiesAway => exact isInfinity _ (threshold (.inr rfl))
  | towardZero =>
    refine ⟨stands.finite, ?_⟩
    cases negative with
    | true =>
      rw [if_pos (by simp only [signed, if_true]; linarith)]
      exact inward
    | false =>
      rw [if_neg (by simp only [signed, false_eq_true, if_false]; linarith)]
      exact inward
  | towardPositive =>
    cases negative with
    | true => exact .inl ⟨stands.finite, inward⟩
    | false => exact outward
  | towardNegative =>
    cases negative with
    | true => exact outward
    | false => exact .inl ⟨stands.finite, inward⟩

theorem overflowResult_encodes :
    (overflowResult format negative control).value.semantics = format ∧
      (overflowResult format negative control).value.canonical = true ∧
      (decode (overflowResult format negative control).value).negative = negative := by
  have stands := stands_maximumFinite known negative
  obtain ⟨semantics, canonical, decoded⟩ := decode_infinity known negative
  have value : (overflowResult format negative control).value = infinity format negative ∨
      (overflowResult format negative control).value = maximumFinite format negative := by
    rw [overflowResult]
    exact ite_eq_or_eq _ _ _
  rcases value with isInfinity | isMaximum
  · rw [isInfinity, decoded]
    exact ⟨semantics, canonical, rfl⟩
  · rw [isMaximum]
    exact ⟨stands.semantics, stands.canonical, stands.sign⟩

theorem overflowResult_correct (zeroNegative : Bool) (positive : 0 < magnitude)
    (past : ∀ other ∈ fmt.grid, other < magnitude)
    (threshold : control.rounding = .nearestTiesToEven ∨ control.rounding = .nearestTiesAway →
      overflowThreshold fmt ≤ magnitude) :
    CorrectlyRounded format fmt control.rounding (signed negative magnitude) zeroNegative
      (overflowResult format negative control) := by
  obtain ⟨semantics, canonical, sign⟩ := overflowResult_encodes known negative control
  refine ⟨rfl, semantics, canonical,
    overflowResult_rounds known negative control positive past threshold, ?_, ?_⟩
  · rw [sign_signed negative positive, sign]
  · refine ⟨fun _ => ?_, fun _ => rfl⟩
    rintro ⟨finite, same⟩
    have bound := past _ (abs_mem_grid known (finite_mem semantics finite))
    rw [same, abs_signed positive.le] at bound
    exact lt_irrefl _ bound

theorem tinyNonzeroResult_correct (zeroNegative : Bool) (positive : 0 < magnitude)
    (tiny : magnitude < 2 ^ (fmt.lowestExponent - 1)) :
    CorrectlyRounded format fmt control.rounding (signed negative magnitude) zeroNegative
      (tinyNonzeroResult format negative control) := by
  have facts := formatFacts known
  have precision := facts.precision
  have unitPos := two_zpow_pos fmt.lowestExponent
  rw [zpow_sub_one₀ (by norm_num)] at tiny
  have isMagnitude : magnitude = (((0 : ℕ) : ℚ) + magnitude / 2 ^ fmt.lowestExponent) *
      2 ^ fmt.lowestExponent := by
    push_cast
    rw [zero_add, div_mul_cancel₀ _ unitPos.ne']
  have half : magnitude / 2 ^ fmt.lowestExponent < 1 / 2 := by
    rw [div_lt_iff₀ unitPos]
    linarith
  have between : Between fmt magnitude 0 (magnitude / 2 ^ fmt.lowestExponent) fmt.lowestExponent :=
    ⟨isMagnitude, div_pos positive unitPos, by linarith, le_refl _, facts.lowest_le_highest,
      Nat.two_pow_pos _, .inl rfl⟩
  have isZero := stands_zero known negative
  have isMinimum := stands_minimumSubnormal known negative
  have notEqual : ∀ count : ℕ, magnitude ≠ count * 2 ^ fmt.lowestExponent := by
    rintro count rfl
    have isPositive : 0 < count := Nat.pos_of_ne_zero (by rintro rfl; simp at positive)
    have atLeast : (1 : ℚ) ≤ count := by exact_mod_cast isPositive
    nlinarith
  have differs : ∀ {count : ℕ} {value : FloatValue},
      Stands format negative count fmt.lowestExponent value →
        value.toRat ≠ signed negative magnitude := by
    intro count value stands same
    rw [stands.toRat, signed, signed] at same
    apply notEqual count
    split at same <;> linarith
  have away : ((control.rounding == .towardPositive && !negative ||
      control.rounding == .towardNegative && negative) = true) ↔
      RoundsAway control.rounding negative 0 (magnitude / 2 ^ fmt.lowestExponent) := by
    cases control.rounding with
    | nearestTiesToEven | nearestTiesAway => simp [RoundsAway]; linarith
    | towardZero | towardPositive | towardNegative => simp [RoundsAway]
  simp only [tinyNonzeroResult]
  split
  case isTrue goesUp =>
    refine ⟨rfl, isMinimum.semantics, isMinimum.canonical, ?_, ?_, ?_⟩
    · refine between.rounds_up known isMinimum.semantics isMinimum.finite ?_ ?_ ?_ (away.mp goesUp)
      · rw [isMinimum.toRat]
        push_cast
        rw [zero_add]
      · left
        exact Nat.one_lt_two_pow (by omega)
      · intro odd
        simp at odd
    · rw [sign_signed negative positive, isMinimum.sign]
    · simp only [true_iff]
      exact fun same => differs isMinimum same.2
  case isFalse stays =>
    refine ⟨rfl, isZero.semantics, isZero.canonical, ?_, ?_, ?_⟩
    · refine between.rounds_down known isZero.semantics isZero.finite isZero.toRat ?_
        (mt away.mpr stays)
      intro even
      rw [isZero.significand]
      exact even
    · rw [sign_signed negative positive, isZero.sign]
    · simp only [true_iff]
      exact fun same => differs isZero same.2

end Ends

end Aburi.Numeric
