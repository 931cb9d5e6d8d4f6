import Aburi.Numeric.Arithmetic

/-!
# Correct rounding determines the value

Two values that are correctly rounded for one number in one mode stand for the
same number.  In the mode that rounds ties to even this rests on neighbours
having significands of different parity.
-/

namespace Aburi.Numeric

open Aburi.Lib

/-- Values that no number tells apart. -/
def SameValue (left right : FloatValue) : Prop :=
  left = right ∨ left.IsFinite ∧ right.IsFinite ∧ left.toRat = right.toRat

section Unique

variable {format : FloatFormat} {fmt : FloatFormatDescriptor} (known : descriptor format = some fmt)

theorem reduced_form (known : descriptor format = some fmt) {value : FloatValue}
    (semantics : value.semantics = format) (finite : value.IsFinite) :
    ∃ unit, value.magnitude = (decode value).significand * 2 ^ unit ∧
      (decode value).significand < 2 ^ fmt.precision ∧ unit ≤ fmt.highestExponent ∧
      Reduced fmt.precision fmt.lowestExponent (decode value).significand unit := by
  obtain ⟨small, form⟩ := finite.decoded_form known semantics
  by_cases isZero : (decode value).significand = 0
  · refine ⟨fmt.lowestExponent, ?_, small, (formatFacts known).lowest_le_highest, le_refl _,
      .inl rfl⟩
    rw [FloatValue.magnitude, isZero]
    simp
  · obtain ⟨atLeast, atMost, fine⟩ := form isZero
    exact ⟨_, rfl, small, atMost, atLeast, fine⟩

theorem mem_finiteValues (known : descriptor format = some fmt) {count : ℕ} {unit : ℤ}
    (reduced : Reduced fmt.precision fmt.lowestExponent count unit)
    (small : count < 2 ^ fmt.precision) (atMost : unit ≤ fmt.highestExponent)
    (negative : Bool) : signed negative (count * 2 ^ unit) ∈ finiteValues format := by
  have facts := formatFacts known
  have double := precision_pow known
  have storage := facts.significand
  have lowest : fmt.lowestExponent = fmt.minNormalExponent - (fmt.precision - 1) := rfl
  have highest : fmt.highestExponent = fmt.maxNormalExponent - (fmt.precision - 1) := rfl
  obtain ⟨atLeast, fine⟩ := reduced
  by_cases normal : 2 ^ (fmt.precision - 1) ≤ count
  · have stands := @stands_normal _ _ known negative (unit + (fmt.precision - 1)) _
      (by omega) (by omega) normal small
    refine ⟨_, stands.semantics, stands.finite, ?_⟩
    rw [stands.toRat, add_sub_cancel_right]
  · have isLowest : unit = fmt.lowestExponent := by
      rcases fine with isLow | many
      · exact isLow
      · omega
    have stands := @stands_subnormal _ _ known negative count (by rw [storage]; split <;> omega)
    refine ⟨_, stands.semantics, stands.finite, ?_⟩
    rw [stands.toRat, isLowest]

include known

variable {left right : FloatValue}

theorem significand_eq_of_toRat (leftFinite : left.IsFinite) (rightFinite : right.IsFinite)
    (leftFormat : left.semantics = format) (rightFormat : right.semantics = format)
    (same : left.toRat = right.toRat) :
    (decode left).significand = (decode right).significand := by
  obtain ⟨leftUnit, leftForm, leftSmall, -, leftReduced⟩ := reduced_form known leftFormat leftFinite
  obtain ⟨rightUnit, rightForm, rightSmall, -, rightReduced⟩ :=
    reduced_form known rightFormat rightFinite
  have magnitudes : left.magnitude = right.magnitude := by
    have leftNonneg : 0 ≤ left.magnitude := by
      rw [leftForm]
      exact mul_nonneg (Nat.cast_nonneg _) (two_zpow_pos _).le
    have rightNonneg : 0 ≤ right.magnitude := by
      rw [rightForm]
      exact mul_nonneg (Nat.cast_nonneg _) (two_zpow_pos _).le
    rw [← @abs_signed (decode left).negative _ leftNonneg, ← toRat_signed, same,
      toRat_signed, abs_signed rightNonneg]
  rw [leftForm, rightForm] at magnitudes
  exact leftReduced.count_eq rightReduced leftSmall rightSmall magnitudes

theorem next_magnitude {value : FloatValue} (semantics : value.semantics = format)
    (finite : value.IsFinite) (even : Even (decode value).significand) :
    ∃ next, value.magnitude < next ∧
      (∀ negative, signed negative next ∈ finiteValues format) ∧
      (∀ other ∈ fmt.grid, other ≤ value.magnitude ∨ next ≤ other) ∧
      ∀ other : FloatValue, other.semantics = format → other.IsFinite →
        |other.toRat| = next → Odd (decode other).significand := by
  have precision := (formatFacts known).precision
  obtain ⟨unit, form, small, atMost, reduced⟩ := reduced_form known semantics finite
  generalize (decode value).significand = count at form small reduced even
  have evenPower : Even (2 ^ fmt.precision) := Nat.even_pow.mpr ⟨even_two, by omega⟩
  have nextSmall : count + 1 < 2 ^ fmt.precision := by
    rcases Nat.lt_or_ge (count + 1) (2 ^ fmt.precision) with below | above
    · exact below
    · have full : count + 1 = 2 ^ fmt.precision := by omega
      exact absurd (full ▸ evenPower) (Nat.not_even_iff_odd.mpr even.add_one)
  have nextReduced : Reduced fmt.precision fmt.lowestExponent (count + 1) unit :=
    ⟨reduced.1, reduced.2.imp id fun many => by omega⟩
  refine ⟨((count + 1 : ℕ) : ℚ) * 2 ^ unit, ?_, ?_, ?_, ?_⟩
  · rw [form]
    apply mul_lt_mul_of_pos_right _ (two_zpow_pos unit)
    push_cast
    linarith
  · exact fun negative => mem_finiteValues known nextReduced nextSmall atMost negative
  · intro other member
    have gap := grid_gap reduced.2 member
    rw [form]
    push_cast
    exact gap
  · intro other otherFormat otherFinite isNext
    obtain ⟨otherUnit, otherForm, otherSmall, -, otherReduced⟩ :=
      reduced_form known otherFormat otherFinite
    have nonneg : 0 ≤ other.magnitude := by
      rw [otherForm]
      exact mul_nonneg (Nat.cast_nonneg _) (two_zpow_pos _).le
    rw [toRat_signed, abs_signed nonneg, otherForm] at isNext
    rw [otherReduced.count_eq nextReduced otherSmall nextSmall isNext]
    exact even.add_one

variable {number : ℚ}

theorem nearest_even_unique (leftFormat : left.semantics = format)
    (rightFormat : right.semantics = format) (leftFinite : left.IsFinite)
    (rightFinite : right.IsFinite)
    (leftNearest : ∀ other ∈ finiteValues format, |number - left.toRat| ≤ |number - other|)
    (rightNearest : ∀ other ∈ finiteValues format, |number - right.toRat| ≤ |number - other|)
    (leftEven : Even (decode left).significand) (rightEven : Even (decode right).significand) :
    ¬ left.toRat < right.toRat := by
  intro ordered
  have leftMember := finite_mem leftFormat leftFinite
  have rightMember := finite_mem rightFormat rightFinite
  have equal : |number - left.toRat| = |number - right.toRat| :=
    le_antisymm (leftNearest _ rightMember) (rightNearest _ leftMember)
  have middle : 2 * number = left.toRat + right.toRat := by
    rcases abs_eq_abs.mp equal with same | opposite <;> linarith
  have between : ∀ other ∈ finiteValues format, ¬ (left.toRat < other ∧ other < right.toRat) := by
    rintro other member ⟨above, below⟩
    have nearest := leftNearest other member
    have distance : |number - left.toRat| = number - left.toRat := abs_of_nonneg (by linarith)
    have nearer : |number - other| < number - left.toRat := by
      rw [abs_lt]
      constructor <;> linarith
    linarith
  rcases le_or_gt 0 left.toRat with leftNonneg | leftNegative
  · have magnitude : left.magnitude = left.toRat := by
      have nonneg : 0 ≤ left.magnitude := mul_nonneg (Nat.cast_nonneg _) (two_zpow_pos _).le
      rw [← abs_of_nonneg leftNonneg, toRat_signed, abs_signed nonneg]
    obtain ⟨next, above, member, gap, odd⟩ := next_magnitude known leftFormat leftFinite leftEven
    have onGrid := abs_mem_grid known rightMember
    have isAbs : |right.toRat| = right.toRat := abs_of_nonneg (by linarith)
    have isNext : right.toRat = next := by
      apply le_antisymm
      · by_contra beyond
        exact between next (member false) ⟨by linarith, by linarith⟩
      · rcases gap _ onGrid with low | high
        · linarith
        · linarith
    exact absurd rightEven (Nat.not_even_iff_odd.mpr
      (odd right rightFormat rightFinite (isAbs.trans isNext)))
  · rcases le_or_gt right.toRat 0 with rightNonpos | rightPositive
    · have magnitude : right.magnitude = -right.toRat := by
        have nonneg : 0 ≤ right.magnitude := mul_nonneg (Nat.cast_nonneg _) (two_zpow_pos _).le
        rw [← abs_of_nonpos rightNonpos, toRat_signed, abs_signed nonneg]
      obtain ⟨next, above, member, gap, odd⟩ :=
        next_magnitude known rightFormat rightFinite rightEven
      have onGrid := abs_mem_grid known leftMember
      have isAbs : |left.toRat| = -left.toRat := abs_of_neg leftNegative
      have negated : signed true next = -next := rfl
      have isNext : -left.toRat = next := by
        apply le_antisymm
        · by_contra beyond
          exact between _ (member true) ⟨by linarith, by linarith⟩
        · rcases gap _ onGrid with low | high
          · linarith
          · linarith
      exact absurd leftEven (Nat.not_even_iff_odd.mpr
        (odd left leftFormat leftFinite (isAbs.trans isNext)))
    · have stands := stands_zero known false
      have isZero : (zero format false).toRat = 0 := by
        rw [stands.toRat]
        simp [signed]
      exact between 0 ⟨_, stands.semantics, stands.finite, isZero⟩ ⟨leftNegative, rightPositive⟩

omit known in
theorem nearest_unique {leftTie rightTie : ℚ → Prop} (leftFormat : left.semantics = format)
    (rightFormat : right.semantics = format) (exclusive : left.IsFinite → right.IsFinite →
      (∀ other ∈ finiteValues format, |number - left.toRat| ≤ |number - other|) →
      (∀ other ∈ finiteValues format, |number - right.toRat| ≤ |number - other|) →
      leftTie right.toRat → rightTie left.toRat → left.toRat = right.toRat)
    (leftRounds : RoundsToNearest format fmt number left leftTie)
    (rightRounds : RoundsToNearest format fmt number right rightTie) :
    SameValue left right := by
  rw [RoundsToNearest] at leftRounds rightRounds
  split at leftRounds
  case isTrue small =>
    rw [if_pos small] at rightRounds
    obtain ⟨leftFinite, leftNearest⟩ := leftRounds
    obtain ⟨rightFinite, rightNearest⟩ := rightRounds
    have leftMember := finite_mem leftFormat leftFinite
    have rightMember := finite_mem rightFormat rightFinite
    have equal : |number - left.toRat| = |number - right.toRat| :=
      le_antisymm (leftNearest _ rightMember).1 (rightNearest _ leftMember).1
    refine .inr ⟨leftFinite, rightFinite, ?_⟩
    rcases (leftNearest _ rightMember).2 equal.symm with same | leftTied
    · exact same.symm
    · rcases (rightNearest _ leftMember).2 equal with same | rightTied
      · exact same
      · exact exclusive leftFinite rightFinite (fun other member => (leftNearest other member).1)
          (fun other member => (rightNearest other member).1) leftTied rightTied
  case isFalse large =>
    rw [if_neg large] at rightRounds
    exact .inl (leftRounds.trans rightRounds.symm)

section

variable {rounding : RoundingMode} (leftFormat : left.semantics = format)
  (rightFormat : right.semantics = format)
include leftFormat rightFormat

theorem roundsTo_unique (leftRounds : RoundsTo format fmt number left rounding)
    (rightRounds : RoundsTo format fmt number right rounding) : SameValue left right := by
  cases rounding with
  | nearestTiesToEven =>
    refine nearest_unique leftFormat rightFormat ?_ leftRounds rightRounds
    intro leftFinite rightFinite leftNearest rightNearest leftEven rightEven
    have notBelow := nearest_even_unique known leftFormat rightFormat leftFinite rightFinite
      leftNearest rightNearest leftEven rightEven
    have notAbove := nearest_even_unique known rightFormat leftFormat rightFinite leftFinite
      rightNearest leftNearest rightEven leftEven
    exact le_antisymm (not_lt.mp notAbove) (not_lt.mp notBelow)
  | nearestTiesAway =>
    refine nearest_unique leftFormat rightFormat ?_ leftRounds rightRounds
    intro _ _ _ _ leftTied rightTied
    exact absurd leftTied (not_lt.mpr rightTied.le)
  | towardZero =>
    obtain ⟨leftFinite, leftBound⟩ := leftRounds
    obtain ⟨rightFinite, rightBound⟩ := rightRounds
    refine .inr ⟨leftFinite, rightFinite, ?_⟩
    split at leftBound
    case isTrue negative =>
      rw [if_pos negative] at rightBound
      exact leftBound.unique rightBound
    case isFalse positive =>
      rw [if_neg positive] at rightBound
      exact leftBound.unique rightBound
  | towardPositive | towardNegative =>
    rcases leftRounds with ⟨leftFinite, leftExtreme⟩ | ⟨leftInfinity, leftPast⟩
    · rcases rightRounds with ⟨rightFinite, rightExtreme⟩ | ⟨-, rightPast⟩
      · exact .inr ⟨leftFinite, rightFinite, leftExtreme.unique rightExtreme⟩
      · exact absurd leftExtreme.1.2 (not_le.mpr (rightPast _ leftExtreme.1.1))
    · rcases rightRounds with ⟨-, rightExtreme⟩ | ⟨rightInfinity, -⟩
      · exact absurd rightExtreme.1.2 (not_le.mpr (leftPast _ rightExtreme.1.1))
      · exact .inl (leftInfinity.trans rightInfinity.symm)

/-- What a value is the rounding of does not depend on its encoding. -/
theorem roundsTo_of_sameValue (same : SameValue left right)
    (rounds : RoundsTo format fmt number right rounding) :
    RoundsTo format fmt number left rounding := by
  rcases same with rfl | ⟨leftFinite, rightFinite, toRat⟩
  · exact rounds
  have notInfinity : ∀ negative, right ≠ infinity format negative := by
    rintro negative rfl
    exact infinity_not_finite known negative rightFinite
  have significand := significand_eq_of_toRat known leftFinite rightFinite leftFormat rightFormat
    toRat
  cases rounding with
  | nearestTiesToEven | nearestTiesAway =>
    simp only [RoundsTo, RoundsToNearest] at rounds ⊢
    split
    case isTrue small =>
      rw [if_pos small] at rounds
      simp only [toRat, significand]
      exact ⟨leftFinite, rounds.2⟩
    case isFalse large =>
      rw [if_neg large] at rounds
      exact absurd rounds (notInfinity _)
  | towardZero =>
    refine ⟨leftFinite, ?_⟩
    rw [toRat]
    exact rounds.2
  | towardPositive =>
    rcases rounds with ⟨-, least⟩ | ⟨isInfinity, -⟩
    · refine .inl ⟨leftFinite, ?_⟩
      rw [toRat]
      exact least
    · exact absurd isInfinity (notInfinity _)
  | towardNegative =>
    rcases rounds with ⟨-, greatest⟩ | ⟨isInfinity, -⟩
    · refine .inl ⟨leftFinite, ?_⟩
      rw [toRat]
      exact greatest
    · exact absurd isInfinity (notInfinity _)

end

end Unique

end Aburi.Numeric
