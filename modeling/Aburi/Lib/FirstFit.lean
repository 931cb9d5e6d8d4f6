import Mathlib.Data.Nat.Init
import Mathlib.Dynamics.PeriodicPts.Defs

/-!
# Alignment and first fit

Rounding up to an alignment, and the search that goes from a position to the next
until one is not blocked.  The search runs on fuel; where the positions come round
again, it needs no more of it than there are positions.
-/

namespace Aburi.Lib

/-- The least multiple of `alignment` that is at least `value`; an alignment of
zero stands for one. -/
def alignTo (value alignment : ℕ) : ℕ :=
  if alignment ≤ 1 then value
  else if value % alignment = 0 then value
  else value + (alignment - value % alignment)

theorem le_alignTo (value alignment : ℕ) : value ≤ alignTo value alignment := by
  unfold alignTo
  split
  · exact le_rfl
  · split <;> omega

theorem dvd_alignTo {alignment : ℕ} (positive : 0 < alignment) (value : ℕ) :
    alignment ∣ alignTo value alignment := by
  unfold alignTo
  split
  · have isOne : alignment = 1 := by omega
    exact isOne ▸ Nat.one_dvd value
  · split
    · exact Nat.dvd_of_mod_eq_zero ‹_›
    · have below := Nat.mod_lt value positive
      have decomposed := Nat.div_add_mod value alignment
      refine ⟨value / alignment + 1, ?_⟩
      rw [Nat.mul_add, Nat.mul_one]
      omega

theorem alignTo_lt {alignment : ℕ} (positive : 0 < alignment) (value : ℕ) :
    alignTo value alignment < value + alignment := by
  have below := Nat.mod_lt value positive
  unfold alignTo
  split
  · omega
  · split <;> omega

/-- Between a value and its rounding there is no other multiple. -/
theorem alignTo_le {value alignment bound : ℕ} (positive : 0 < alignment)
    (multiple : alignment ∣ bound) (above : value ≤ bound) :
    alignTo value alignment ≤ bound := by
  have near := alignTo_lt positive value
  obtain ⟨low, isLow⟩ := dvd_alignTo positive value
  obtain ⟨high, isHigh⟩ := multiple
  rw [isLow] at near ⊢
  subst isHigh
  apply Nat.mul_le_mul_left
  by_contra less
  have step : alignment * (high + 1) ≤ alignment * low := Nat.mul_le_mul_left alignment (by omega)
  rw [Nat.mul_add, Nat.mul_one] at step
  omega

@[simp] theorem alignTo_zero (alignment : ℕ) : alignTo 0 alignment = 0 := by
  simp [alignTo]

variable {α : Type*}

/-- The first position `position`, `next position`, ... that is not blocked, when it
is among the first `fuel` ones. -/
def firstFit (next : α → α) (blocked : α → Bool) : ℕ → α → Option α
  | 0, _ => none
  | fuel + 1, position =>
    if blocked position then firstFit next blocked fuel (next position)
    else some position

variable {next : α → α} {blocked : α → Bool} {fuel : ℕ} {position found : α}

theorem firstFit_eq_none_iff :
    firstFit next blocked fuel position = none ↔
      ∀ steps < fuel, blocked (next^[steps] position) = true := by
  induction fuel generalizing position with
  | zero => simp [firstFit]
  | succ fuel induction =>
    unfold firstFit
    constructor
    · intro ended
      split at ended
      · rename_i taken
        intro steps within
        cases steps with
        | zero => exact taken
        | succ steps => exact induction.mp ended steps (by omega)
      · contradiction
    · intro taken
      have here : blocked position = true := taken 0 (by omega)
      rw [if_pos here]
      apply induction.mpr
      intro steps within
      exact taken (steps + 1) (by omega)

theorem firstFit_eq_some_iff :
    firstFit next blocked fuel position = some found ↔
      ∃ steps < fuel, next^[steps] position = found ∧ blocked found = false ∧
        ∀ earlier < steps, blocked (next^[earlier] position) = true := by
  induction fuel generalizing position with
  | zero => simp [firstFit]
  | succ fuel induction =>
    unfold firstFit
    by_cases taken : blocked position = true
    · rw [if_pos taken, induction]
      constructor
      · rintro ⟨steps, within, reaches, free, before⟩
        refine ⟨steps + 1, by omega, reaches, free, ?_⟩
        intro earlier sooner
        cases earlier with
        | zero => exact taken
        | succ earlier => exact before earlier (by omega)
      · rintro ⟨steps, within, reaches, free, before⟩
        cases steps with
        | zero =>
          subst reaches
          exact absurd taken (by simpa using free)
        | succ steps =>
          refine ⟨steps, by omega, reaches, free, ?_⟩
          intro earlier sooner
          exact before (earlier + 1) (by omega)
    · rw [if_neg taken]
      constructor
      · rintro ⟨⟩
        exact ⟨0, by omega, rfl, by simpa using taken, by simp⟩
      · rintro ⟨steps, _, reaches, _, before⟩
        cases steps with
        | zero => rw [← reaches, Function.iterate_zero_apply]
        | succ steps => exact absurd (before 0 (by omega)) taken

/-- A search that has gone around once without an answer has none. -/
theorem firstFit_none_forever (around : next^[fuel] position = position)
    (ended : firstFit next blocked fuel position = none) (steps : ℕ) (positive : 0 < fuel) :
    blocked (next^[steps] position) = true := by
  have periodic : Function.IsPeriodicPt next fuel position := around
  rw [← periodic.iterate_mod_apply steps]
  exact firstFit_eq_none_iff.mp ended _ (Nat.mod_lt _ positive)

end Aburi.Lib
