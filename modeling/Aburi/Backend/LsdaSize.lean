import Aburi.Backend.Lsda
import Mathlib.Tactic.Ring

/-!
# The size of the size

The distance to the type table is written in front of what it measures, so the
emitter repeats with the number of bytes that the distance takes.  The distance
moves by at most three with that number, because the table is aligned; the loop
swings between two numbers where the alignment takes back what a longer number
adds.
-/

namespace Aburi.Backend.Eh

open Aburi.Lib

theorem ulebLoop_length_le_iff {fuel bits size : ℕ} (enough : bits < fuel) :
    (ulebLoop fuel bits).length ≤ size + 1 ↔ bits < 2 ^ (7 * (size + 1)) := by
  induction fuel generalizing bits size with
  | zero => omega
  | succ fuel induction =>
    have step : 2 ^ (7 * (size + 1)) = 128 * 2 ^ (7 * size) := by
      rw [show 7 * (size + 1) = 7 + 7 * size by ring, pow_add]
      norm_num
    have positive : 0 < 2 ^ (7 * size) := Nat.two_pow_pos _
    rw [ulebLoop]
    split
    case isTrue last =>
      rw [List.length_singleton, step]
      constructor
      · intro _
        omega
      · intro _
        omega
    case isFalse more =>
      rw [List.length_cons]
      cases size with
      | zero =>
        have rest : (ulebLoop fuel (bits / 128)).length ≠ 0 := by
          intro isZero
          have atMost := (@induction (bits / 128) 0 (by omega)).mp (by omega)
          cases fuel with
          | zero => omega
          | succ fuel =>
            rw [ulebLoop] at isZero
            split at isZero
            · cases isZero
            · cases isZero
        constructor
        · intro atMost
          omega
        · intro small
          rw [step] at small
          omega
      | succ size =>
        rw [step, Nat.add_le_add_iff_right, induction (by omega)]
        omega

theorem ulebSize_le_iff {value size : ℕ} (positive : 0 < size) :
    ulebSize value ≤ size ↔ value < 2 ^ (7 * size) := by
  obtain ⟨size, rfl⟩ := Nat.exists_eq_succ_of_ne_zero positive.ne'
  exact ulebLoop_length_le_iff (Nat.lt_succ_self _)

theorem ulebSize_pos (value : ℕ) : 0 < ulebSize value := by
  rw [ulebSize, uleb, ulebLoop]
  split
  · exact Nat.one_pos
  · exact Nat.succ_pos _

/-- A number of bytes for which the loop swings. -/
def Swings (total : ℕ) : Prop :=
  ∃ size, size % 4 = 2 ∧ 2 ^ (7 * size) ≤ total + 4 ∧ total + 2 ≤ 2 ^ (7 * size)

section Loop

variable {tables entries : ℕ}

/-- Bytes between the tables and the type table. -/
def ttypePadding (tables ulebBytes : ℕ) : ℕ := (4 - (3 + ulebBytes + tables) % 4) % 4

theorem ttypeCandidate_eq (tables entries ulebBytes : ℕ) :
    ttypeCandidate tables entries ulebBytes =
      tables + entries * 4 + 1 + ttypePadding tables ulebBytes := by
  rw [ttypeCandidate, ttypePadding]
  omega

/-- The candidate takes as many bytes as the smallest, or one more. -/
theorem ulebSize_candidate (ulebBytes : ℕ) :
    ulebSize (ttypeCandidate tables entries ulebBytes) = ulebSize (tables + entries * 4 + 1) ∨
      ulebSize (ttypeCandidate tables entries ulebBytes) =
        ulebSize (tables + entries * 4 + 1) + 1 := by
  have positive := ulebSize_pos (tables + entries * 4 + 1)
  generalize isSize : ulebSize (tables + entries * 4 + 1) = size at *
  have padding : ttypePadding tables ulebBytes ≤ 3 := by
    rw [ttypePadding]
    omega
  have candidate := ttypeCandidate_eq tables entries ulebBytes
  have small := (ulebSize_le_iff positive).mp (Nat.le_of_eq isSize)
  have step : 2 ^ (7 * (size + 1)) = 128 * 2 ^ (7 * size) := by
    rw [show 7 * (size + 1) = 7 + 7 * size by ring, pow_add]
    norm_num
  have atMost : ulebSize (ttypeCandidate tables entries ulebBytes) ≤ size + 1 := by
    rw [ulebSize_le_iff (by omega), step, candidate]
    omega
  have atLeast : size ≤ ulebSize (ttypeCandidate tables entries ulebBytes) := by
    by_contra below
    rw [Nat.not_le] at below
    have positive' := ulebSize_pos (ttypeCandidate tables entries ulebBytes)
    have lower := (@ulebSize_le_iff (ttypeCandidate tables entries ulebBytes) (size - 1)
      (by omega)).mp (by omega)
    have smaller := (@ulebSize_le_iff (tables + entries * 4 + 1) (size - 1) (by omega)).mpr
      (by omega)
    omega
  omega

/-- A number of bytes that the loop stops at. -/
def Stops (tables entries ulebBytes : ℕ) : Prop :=
  ulebSize (ttypeCandidate tables entries ulebBytes) = ulebBytes

theorem swings_iff {size : ℕ} (isSize : ulebSize (tables + entries * 4 + 1) = size) :
    Swings (tables + entries * 4) ↔
      ¬ Stops tables entries size ∧ ¬ Stops tables entries (size + 1) := by
  have positive := ulebSize_pos (tables + entries * 4 + 1)
  rw [isSize] at positive
  have first := @ulebSize_candidate tables entries size
  have second := @ulebSize_candidate tables entries (size + 1)
  rw [isSize] at first second
  have firstSmall := @ulebSize_le_iff (ttypeCandidate tables entries size) size positive
  have secondSmall := @ulebSize_le_iff (ttypeCandidate tables entries (size + 1)) size positive
  have here := (ulebSize_le_iff positive).mp (Nat.le_of_eq isSize)
  have paddings : ttypePadding tables size = (4 - (3 + size + tables) % 4) % 4 ∧
      ttypePadding tables (size + 1) = (4 - (3 + (size + 1) + tables) % 4) % 4 := ⟨rfl, rfl⟩
  rw [ttypeCandidate_eq] at firstSmall secondSmall first second
  have fourDivides : ∀ {other}, 0 < other → 2 ^ (7 * other) % 4 = 0 := by
    intro other otherPositive
    obtain ⟨less, rfl⟩ := Nat.exists_eq_succ_of_ne_zero otherPositive.ne'
    rw [show 7 * (less + 1) = 2 + (5 + 7 * less) by ring, pow_add]
    omega
  rw [Stops, Stops, ttypeCandidate_eq, ttypeCandidate_eq]
  constructor
  · rintro ⟨other, remainder, atLeast, atMost⟩
    -- the number of bytes is the one of the power
    have same : other = size := by
      have otherPositive : 0 < other := by omega
      have upper := (@ulebSize_le_iff (tables + entries * 4 + 1) other otherPositive).mpr (by omega)
      by_contra differs
      have lower := (@ulebSize_le_iff (tables + entries * 4 + 1) (other - 1) (by omega)).mp
        (by omega)
      have step : 2 ^ (7 * other) = 128 * 2 ^ (7 * (other - 1)) := by
        obtain ⟨less, rfl⟩ := Nat.exists_eq_succ_of_ne_zero otherPositive.ne'
        rw [show 7 * (less + 1) = 7 + 7 * less by ring, pow_add]
        norm_num
      have : 0 < 2 ^ (7 * (other - 1)) := Nat.two_pow_pos _
      have large : 2 ^ 7 ≤ 2 ^ (7 * (other - 1)) := Nat.pow_le_pow_right (by norm_num) (by omega)
      omega
    subst same
    have aligned := fourDivides positive
    omega
  · rintro ⟨goesOn, goesBack⟩
    have aligned := fourDivides positive
    refine ⟨size, ?_, ?_, ?_⟩ <;> omega

attribute [local grind =] ttypeLoop

theorem ttypeLoop_stops {ulebBytes : ℕ} (fuel : ℕ) (stops : Stops tables entries ulebBytes) :
    ttypeLoop tables entries (fuel + 1) ulebBytes =
      some (ttypeCandidate tables entries ulebBytes) := by
  rw [ttypeLoop]
  exact if_pos stops

theorem ttypeLoop_goesOn {ulebBytes : ℕ} (fuel : ℕ) (goesOn : ¬ Stops tables entries ulebBytes) :
    ttypeLoop tables entries (fuel + 1) ulebBytes =
      ttypeLoop tables entries fuel (ulebSize (ttypeCandidate tables entries ulebBytes)) := by
  rw [ttypeLoop]
  exact if_neg goesOn

/-- A value of the loop is a candidate that takes the bytes it was made for. -/
theorem ttypeLoop_value {fuel ulebBytes value : ℕ}
    (found : ttypeLoop tables entries fuel ulebBytes = some value) :
    value = ttypeCandidate tables entries (ulebSize value) := by
  induction fuel generalizing ulebBytes with
  | zero => cases found
  | succ fuel induction =>
    rw [ttypeLoop] at found
    split at found
    case isTrue stops =>
      cases found
      rw [stops]
    case isFalse => exact induction found

/-- The loop ends unless it swings. -/
theorem ttypeLoop_ends_iff :
    (∃ fuel value, ttypeLoop tables entries fuel 1 = some value) ↔
      ¬ Swings (tables + entries * 4) := by
  generalize isSize : ulebSize (tables + entries * 4 + 1) = size
  have sizes := fun ulebBytes => @ulebSize_candidate tables entries ulebBytes
  rw [isSize] at sizes
  rw [swings_iff isSize]
  constructor
  · rintro ⟨fuel, value, found⟩ ⟨first, second⟩
    -- neither of the two numbers that come up is ever enough
    have never : ∀ fuel ulebBytes, ulebBytes = size ∨ ulebBytes = size + 1 →
        ttypeLoop tables entries fuel ulebBytes = none := by
      intro fuel
      induction fuel with
      | zero => exact fun _ _ => rfl
      | succ fuel induction =>
        intro ulebBytes isEither
        rw [ttypeLoop_goesOn fuel]
        · exact induction _ (sizes ulebBytes)
        · rcases isEither with rfl | rfl
          · exact first
          · exact second
    cases fuel with
    | zero => cases found
    | succ fuel =>
      by_cases stops : Stops tables entries 1
      · have isOne : size = 1 ∨ size + 1 = 1 := by
          rcases sizes 1 with same | same
          · exact .inl (same.symm.trans stops)
          · exact .inr (same.symm.trans stops)
        rcases isOne with rfl | isOne
        · exact first stops
        · exact absurd isOne (by
            have positive := ulebSize_pos (tables + entries * 4 + 1)
            omega)
      · rw [ttypeLoop_goesOn fuel stops, never fuel _ (sizes 1)] at found
        cases found
  · intro ends
    -- after the first round the number is one of two, and one of them stops
    have fromEither : ∀ ulebBytes, ulebBytes = size ∨ ulebBytes = size + 1 →
        ∃ value, ttypeLoop tables entries 2 ulebBytes = some value := by
      intro ulebBytes isEither
      by_cases stops : Stops tables entries ulebBytes
      · exact ⟨_, ttypeLoop_stops 1 stops⟩
      · rw [ttypeLoop_goesOn 1 stops]
        refine ⟨_, ttypeLoop_stops 0 ?_⟩
        rcases isEither with rfl | rfl
        · rcases sizes ulebBytes with same | same
          · exact absurd same stops
          · rw [same]
            by_contra goesBack
            exact ends ⟨stops, goesBack⟩
        · rcases sizes (size + 1) with same | same
          · rw [same]
            by_contra goesOn
            exact ends ⟨goesOn, stops⟩
          · exact absurd same stops
    by_cases stops : Stops tables entries 1
    · exact ⟨1, _, ttypeLoop_stops 0 stops⟩
    · obtain ⟨value, isValue⟩ := fromEither _ (sizes 1)
      exact ⟨3, value, by rw [ttypeLoop_goesOn 2 stops, isValue]⟩

end Loop

end Aburi.Backend.Eh
