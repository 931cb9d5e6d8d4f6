import Mathlib.Algebra.Group.Int.Defs
import Mathlib.Algebra.Ring.Nat

/-!
# LEB128

Little-endian numbers in groups of seven bits, with and without sign.  What a
writer produces, a reader takes off the front of any bytes that follow.
-/

namespace Aburi.Lib

open Nat List Option Bool

/-- Groups of seven bits, all but the last marked.  The fuel only has to exceed
the number. -/
def ulebLoop : ℕ → ℕ → List UInt8
  | 0, _ => []
  | fuel + 1, bits =>
    if bits / 128 = 0 then [UInt8.ofNat (bits % 128)]
    else UInt8.ofNat (bits % 128 + 128) :: ulebLoop fuel (bits / 128)

def uleb (bits : ℕ) : List UInt8 := ulebLoop (bits + 1) bits

/-- The rest of a signed number is known from the sign bit of the last group. -/
def slebLast (value : ℤ) : Bool :=
  value / 128 == 0 && decide (value % 128 < 64) || value / 128 == -1 && decide (64 ≤ value % 128)

def slebLoop : ℕ → ℤ → List UInt8
  | 0, _ => []
  | fuel + 1, value =>
    if slebLast value then [UInt8.ofNat (value % 128).toNat]
    else UInt8.ofNat ((value % 128).toNat + 128) :: slebLoop fuel (value / 128)

def sleb (value : ℤ) : List UInt8 := slebLoop (value.natAbs + 1) value

def readUleb : List UInt8 → Option (ℕ × List UInt8)
  | [] => none
  | byte :: rest =>
    if byte.toNat < 128 then some (byte.toNat, rest)
    else (readUleb rest).map fun (upper, left) => (byte.toNat - 128 + 128 * upper, left)

def readSleb : List UInt8 → Option (ℤ × List UInt8)
  | [] => none
  | byte :: rest =>
    if byte.toNat < 64 then some (byte.toNat, rest)
    else if byte.toNat < 128 then some ((byte.toNat : ℤ) - 128, rest)
    else (readSleb rest).map fun (upper, left) => ((byte.toNat : ℤ) - 128 + 128 * upper, left)

section RoundTrip

theorem toNat_ofNat_byte {number : ℕ} (small : number < 256) :
    (UInt8.ofNat number).toNat = number := by
  rw [UInt8.toNat_ofNat']
  exact mod_eq_of_lt small

theorem readUleb_ulebLoop {fuel bits : ℕ} (enough : bits < fuel) (rest : List UInt8) :
    readUleb (ulebLoop fuel bits ++ rest) = some (bits, rest) := by
  induction fuel generalizing bits with
  | zero => omega
  | succ fuel induction =>
    rw [ulebLoop]
    split
    case isTrue last =>
      have byte := @toNat_ofNat_byte (bits % 128) (by omega)
      rw [singleton_append, readUleb, byte, if_pos (by omega)]
      rw [some_inj, Prod.mk.injEq]
      exact ⟨by omega, rfl⟩
    case isFalse more =>
      have byte := @toNat_ofNat_byte (bits % 128 + 128) (by omega)
      rw [cons_append, readUleb, byte, if_neg (by omega), induction (by omega)]
      simp only [map_some]
      rw [some_inj, Prod.mk.injEq]
      exact ⟨by omega, rfl⟩

/-- Reading what was written gives the number back and leaves the rest. -/
theorem readUleb_uleb (bits : ℕ) (rest : List UInt8) :
    readUleb (uleb bits ++ rest) = some (bits, rest) :=
  readUleb_ulebLoop (lt_succ_self _) rest

theorem readSleb_slebLoop {fuel : ℕ} {value : ℤ} (enough : value.natAbs < fuel)
    (rest : List UInt8) : readSleb (slebLoop fuel value ++ rest) = some (value, rest) := by
  induction fuel generalizing value with
  | zero => omega
  | succ fuel induction =>
    rw [slebLoop]
    split
    case isTrue last =>
      have byte := @toNat_ofNat_byte (value % 128).toNat (by omega)
      simp only [slebLast, or_eq_true, and_eq_true, beq_iff_eq,
        decide_eq_true_iff] at last
      rw [singleton_append, readSleb, byte]
      rcases last with ⟨noRest, positive⟩ | ⟨allOnes, negative⟩
      · rw [if_pos (by omega)]
        rw [some_inj, Prod.mk.injEq]
        exact ⟨by omega, rfl⟩
      · rw [if_neg (by omega), if_pos (by omega)]
        rw [some_inj, Prod.mk.injEq]
        exact ⟨by omega, rfl⟩
    case isFalse more =>
      have byte := @toNat_ofNat_byte ((value % 128).toNat + 128) (by omega)
      simp only [slebLast, or_eq_true, and_eq_true, beq_iff_eq,
        decide_eq_true_iff] at more
      rw [cons_append, readSleb, byte, if_neg (by omega), if_neg (by omega),
        induction (by omega)]
      simp only [map_some]
      rw [some_inj, Prod.mk.injEq]
      exact ⟨by omega, rfl⟩

theorem readSleb_sleb (value : ℤ) (rest : List UInt8) :
    readSleb (sleb value ++ rest) = some (value, rest) :=
  readSleb_slebLoop (lt_succ_self _) rest

end RoundTrip

end Aburi.Lib
