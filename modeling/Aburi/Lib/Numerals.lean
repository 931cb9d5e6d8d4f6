import Mathlib.Data.Nat.Digits.Defs
import Mathlib.Tactic.Ring

/-!
# Numerals

A numeral is written from its end, or in chunks of digits: the highest one as it is,
the lower ones with leading zeros.
-/

namespace Aburi.Lib

open List Nat

variable {base count high low number : ℕ}

/-- A number with leading zeros. -/
def paddedDigits (base count number : ℕ) : List Char := (toDigits base number).leftpad count '0'

/-- The chunks from the highest to the lowest, which stands first in the list. -/
def joinDigits (base count : ℕ) : List ℕ → List Char
  | [] => []
  | [top] => toDigits base top
  | low :: next :: rest => joinDigits base count (next :: rest) ++ paddedDigits base count low

theorem leftpad_concat (digits : List Char) (last : Char) :
    (digits ++ [last]).leftpad (count + 1) '0' = digits.leftpad count '0' ++ [last] := by
  rw [leftpad, leftpad, length_append, length_singleton, Nat.add_sub_add_right, append_assoc]

theorem paddedDigits_succ (wide : 1 < base) (positive : 0 < count) :
    paddedDigits base (count + 1) low =
      paddedDigits base count (low / base) ++ [(low % base).digitChar] := by
  rw [paddedDigits, paddedDigits, ← leftpad_concat]
  rcases Nat.lt_or_ge low base with small | large
  · obtain ⟨count, rfl⟩ : ∃ before, count = before + 1 := ⟨count - 1, by omega⟩
    rw [toDigits_of_lt_base small, Nat.div_eq_of_lt small, toDigits_zero, Nat.mod_eq_of_lt small]
    rw [leftpad, leftpad, length_append, length_singleton, length_singleton, ← append_assoc]
    congr 1
    exact replicate_succ'
  · rw [toDigits_of_base_le wide large]

/-- A number in front of a padded one. -/
theorem toDigits_append_paddedDigits (wide : 1 < base) (counted : 0 < count) (positive : 0 < high)
    (fits : low < base ^ count) :
    toDigits base high ++ paddedDigits base count low = toDigits base (base ^ count * high + low) := by
  induction count, counted using Nat.le_induction generalizing low with
  | base =>
    rw [Nat.succ_eq_add_one, Nat.zero_add, pow_one] at fits ⊢
    rw [paddedDigits, toDigits_of_lt_base fits]
    exact (congrArg _ (toDigits_of_lt_base fits).symm).trans
      (toDigits_append_toDigits wide positive fits)
  | succ count counted ih =>
    have highFits : low / base < base ^ count := by
      rw [Nat.div_lt_iff_lt_mul (by omega), ← pow_succ]
      exact fits
    have lowFits := Nat.mod_lt low (by omega : 0 < base)
    have split := Nat.div_add_mod low base
    rw [paddedDigits_succ wide counted, ← append_assoc, ih highFits, ← toDigits_of_lt_base lowFits,
      toDigits_append_toDigits wide (Nat.add_pos_left (by positivity) _) lowFits]
    congr 1
    rw [pow_succ]
    conv_rhs => rw [← split]
    ring

theorem joinDigits_digits (wide : 1 < base) (counted : 0 < count) (positive : 0 < number) :
    joinDigits base count (digits (base ^ count) number) = toDigits base number := by
  have wider : 1 < base ^ count := Nat.one_lt_pow (by omega) wide
  induction number using Nat.strongRecOn with
  | ind number ih =>
    rcases Nat.lt_or_ge number (base ^ count) with small | large
    · rw [digits_of_lt _ _ (by omega) small, joinDigits]
    · have rest : 0 < number / base ^ count := Nat.div_pos large (by omega)
      have join := ih _ (Nat.div_lt_self positive wider) rest
      have split := Nat.div_add_mod number (base ^ count)
      rw [digits_def' wider positive]
      obtain ⟨next, chunks, isRest⟩ := exists_cons_of_ne_nil
        (digits_ne_nil_iff_ne_zero.mpr rest.ne' : digits (base ^ count) _ ≠ [])
      rw [isRest] at join ⊢
      rw [joinDigits, join, toDigits_append_paddedDigits wide counted rest
        (Nat.mod_lt _ (by omega)), split]

/-- Writes in front of what stands in a buffer while it has room. -/
def writeDigits (digit : ℕ → Char) (base : ℕ) : ℕ → ℕ → List Char → Option (List Char)
  | 0, _, _ => none
  | room + 1, remaining, written =>
    if remaining / base = 0 then some (digit (remaining % base) :: written)
    else writeDigits digit base room (remaining / base) (digit (remaining % base) :: written)

/-- The digits from the highest to the lowest, at least one. -/
def numeral (digit : ℕ → Char) (base number : ℕ) : List Char :=
  (if number = 0 then [0] else digits base number).reverse.map digit

theorem writeDigits_eq {digit : ℕ → Char} {room : ℕ} {written : List Char} (wide : 1 < base)
    (positive : 0 < room) (fits : number < base ^ room) :
    writeDigits digit base room number written = some (numeral digit base number ++ written) := by
  induction room generalizing number written with
  | zero => omega
  | succ room ih =>
    rw [writeDigits, numeral]
    by_cases zero : number = 0
    · simp [zero]
    · rw [if_neg zero, digits_def' wide (by omega)]
      split
      case isTrue last => simp [last]
      case isFalse more =>
        have some : 0 < room := by
          by_contra none
          obtain rfl : room = 0 := by omega
          exact more (Nat.div_eq_of_lt (by simpa using fits))
        rw [ih some ((Nat.div_lt_iff_lt_mul (by omega)).mpr (by rwa [← pow_succ])), numeral,
          if_neg more]
        simp

end Aburi.Lib
