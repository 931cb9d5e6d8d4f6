import Mathlib.Data.BitVec
import Mathlib.Data.Nat.Count

/-!
# Bitmask immediates

`a64_logical_imm` looks for the shortest period of a value, counts the ones of one
period and tries the rotations of as many ones.  The decoder of the architecture
is stated beside it; both are compared bit by bit.
-/

namespace Aburi.Backend.AArch64

open List BitVec
open Nat (add_mod_right count count_add mod_add_mod mod_eq_of_lt mod_lt)

/-- So many ones at the low end; all of them for the width of the word. -/
def lowMask (bits : ℕ) : BitVec 64 :=
  if bits = 64 then allOnes 64 else (1 : BitVec 64) <<< bits - 1

/-- Halves the size as long as the two halves of the low element agree. -/
def elementSize (value : BitVec 64) : ℕ → ℕ → ℕ
  | 0, size => size
  | fuel + 1, size =>
    if 2 < size ∧
        value &&& lowMask (size / 2) = (value >>> (size / 2)) &&& lowMask (size / 2) then
      elementSize value fuel (size / 2)
    else size

/-- So many ones, rotated to the right within an element. -/
def rotatedRun (size ones rotation : ℕ) : BitVec 64 :=
  if rotation = 0 then lowMask ones
  else (lowMask ones >>> rotation ||| lowMask ones <<< (size - rotation)) &&& lowMask size

/-- The fields of a logical immediate. -/
structure LogicalFields where
  n : BitVec 32
  immr : BitVec 32
  imms : BitVec 32
  deriving DecidableEq

/-- The fields for an element of this size with so many ones. -/
def logicalFields (size ones rotation : ℕ) : LogicalFields :=
  if size = 64 then ⟨1, .ofNat 32 rotation, .ofNat 32 (ones - 1)⟩
  else
    ⟨0, .ofNat 32 rotation,
      ((0x3F &&& ~~~.ofNat 32 (2 * size - 1)) ||| .ofNat 32 (ones - 1)) &&& 0x3F⟩

/-- The search on a value that fills the word. -/
def searchRun (value : BitVec 64) : Option LogicalFields :=
  if value = 0 ∨ ~~~value = 0 then none
  else
    let size := elementSize value 64 64
    let element := value &&& lowMask size
    let ones := count (fun bit => element.getLsbD bit = true) size
    if ones = 0 ∨ ones = size then none
    else
      ((List.range size).find? fun rotation => rotatedRun size ones rotation = element).map
        (logicalFields size ones)

/-- A value as the search sees it: those for the short registers twice. -/
def widened (value : BitVec 64) (is64 : Bool) : BitVec 64 :=
  if is64 then value else value ||| value <<< 32

def a64LogicalImm (value : BitVec 64) (is64 : Bool) : Option LogicalFields :=
  if is64 = false ∧ value >>> 32 ≠ 0 then none
  else searchRun (widened value is64)

/-- `HighestSetBit(immN : NOT(imms))`. -/
def highestSetBit (n : BitVec 1) (imms : BitVec 6) : Option ℕ :=
  (List.range 7).reverse.find? (n ++ ~~~imms).getLsbD

/-- `DecodeBitMasks` for immediates; `none` is reserved. -/
def decodeBitMasks (width : ℕ) (n : BitVec 1) (imms immr : BitVec 6) : Option (BitVec width) :=
  match highestSetBit n imms with
  | none => none
  | some len =>
    let levels : BitVec 6 := .ofNat 6 (2 ^ len - 1)
    if len < 1 ∨ width < 2 ^ len ∨ imms &&& levels = levels then none
    else
      let ones := (imms &&& levels).toNat + 1
      let element := ((allOnes ones).setWidth (2 ^ len)).rotateRight (immr &&& levels).toNat
      some ((element.replicate (width / 2 ^ len)).setWidth width)

/-- The decoder on the fields as they stand in an instruction. -/
def LogicalFields.decode (fields : LogicalFields) (width : ℕ) : Option (BitVec width) :=
  decodeBitMasks width (fields.n.setWidth 1) (fields.imms.setWidth 6) (fields.immr.setWidth 6)

def elementSizes : List ℕ := [2, 4, 8, 16, 32, 64]

/-- Ones in a row, neither none nor all, rotated and repeated through the word. -/
def IsRun (value : BitVec 64) (size ones rotation : ℕ) : Prop :=
  size ∈ elementSizes ∧ 0 < ones ∧ ones < size ∧ rotation < size ∧
    ∀ i < 64, value.getLsbD i = decide ((i + rotation) % size < ones)

def IsRepeatedRun (value : BitVec 64) : Prop := ∃ size ones rotation, IsRun value size ones rotation

theorem getLsbD_lowMask {bits i : ℕ} (inside : bits ≤ 64) :
    (lowMask bits).getLsbD i = decide (i < bits) := by
  rw [lowMask]
  split
  case isTrue whole =>
    rw [getLsbD_allOnes, whole]
  case isFalse short =>
    have isPower : ((1 : BitVec 64) <<< bits - 1).toNat = 2 ^ bits - 1 := by
      have small : 2 ^ bits < 2 ^ 64 := Nat.pow_lt_pow_right Nat.one_lt_two (by omega)
      have positive := Nat.two_pow_pos bits
      rw [toNat_sub, toNat_shiftLeft]
      simp only [ofNat_eq_ofNat, toNat_ofNat, Nat.shiftLeft_eq]
      omega
    rw [getLsbD, isPower, Nat.testBit_two_pow_sub_one]

theorem getLsbD_and_lowMask {value : BitVec 64} {bits i : ℕ} (inside : bits ≤ 64) :
    (value &&& lowMask bits).getLsbD i = (value.getLsbD i && decide (i < bits)) := by
  rw [getLsbD_and, getLsbD_lowMask inside]

theorem elementSize_bounds {size : ℕ} (isSize : size ∈ elementSizes) : 2 ≤ size ∧ size ≤ 64 := by
  simp only [elementSizes, mem_cons, not_mem_nil, or_false] at isSize
  omega

/-- The value repeats its low element. -/
def Repeats (value : BitVec 64) (size : ℕ) : Prop :=
  ∀ i < 64, value.getLsbD i = value.getLsbD (i % size)

section Periods

variable {value : BitVec 64} {size : ℕ}

theorem halves_agree_iff (isSize : size ∈ elementSizes) (repeats : Repeats value size) :
    value &&& lowMask (size / 2) = (value >>> (size / 2)) &&& lowMask (size / 2) ↔
      Repeats value (size / 2) := by
  obtain ⟨atLeast, atMost⟩ := elementSize_bounds isSize
  have bits : value &&& lowMask (size / 2) = (value >>> (size / 2)) &&& lowMask (size / 2) ↔
      ∀ i < size / 2, value.getLsbD i = value.getLsbD (size / 2 + i) := by
    constructor
    · intro same i inside
      have bit := congrArg (·.getLsbD i) same
      simpa [getLsbD_and_lowMask (show size / 2 ≤ 64 by omega), inside] using bit
    · intro same
      apply eq_of_getLsbD_eq
      intro i _
      rw [getLsbD_and_lowMask (by omega), getLsbD_and_lowMask (by omega), getLsbD_ushiftRight]
      by_cases inside : i < size / 2
      · rw [same i inside]
      · simp [inside]
  rw [bits]
  constructor
  · intro same i inside
    rw [repeats i inside]
    rcases Nat.lt_or_ge (i % size) (size / 2) with first | second
    · rw [← mod_eq_of_lt first]
      simp only [elementSizes, mem_cons, not_mem_nil, or_false] at isSize
      rcases isSize with rfl | rfl | rfl | rfl | rfl | rfl <;>
        exact congrArg value.getLsbD (by omega)
    · have isHalf : i % size = size / 2 + i % (size / 2) ∧ i % (size / 2) < size / 2 := by
        simp only [elementSizes, mem_cons, not_mem_nil, or_false] at isSize
        rcases isSize with rfl | rfl | rfl | rfl | rfl | rfl <;> omega
      rw [isHalf.1, ← same _ isHalf.2]
  · intro half i inside
    rw [half i (by omega), half (size / 2 + i) (by omega), Nat.add_mod_left]

theorem elementSize_spec {fuel : ℕ} (isSize : size ∈ elementSizes) (repeats : Repeats value size)
    (enough : size ≤ fuel) :
    elementSize value fuel size ∈ elementSizes ∧ Repeats value (elementSize value fuel size) ∧
      (2 < elementSize value fuel size → ¬ Repeats value (elementSize value fuel size / 2)) := by
  induction fuel generalizing size with
  | zero =>
    have positive := (elementSize_bounds isSize).1
    omega
  | succ fuel induction =>
    rw [elementSize]
    split
    case isTrue halves =>
      obtain ⟨large, agree⟩ := halves
      apply induction
      · simp only [elementSizes, mem_cons, not_mem_nil, or_false] at isSize ⊢
        omega
      · exact (halves_agree_iff isSize repeats).mp agree
      · omega
    case isFalse stops =>
      refine ⟨isSize, repeats, ?_⟩
      intro large half
      exact stops ⟨large, (halves_agree_iff isSize repeats).mpr half⟩

end Periods

section Runs

variable {value : BitVec 64} {size ones rotation : ℕ}

section

variable (isRun : IsRun value size ones rotation)
include isRun

theorem IsRun.repeats : Repeats value size := by
  obtain ⟨isSize, -, -, -, bits⟩ := isRun
  obtain ⟨atLeast, atMost⟩ := elementSize_bounds isSize
  intro i inside
  rw [bits i inside, bits (i % size) (by have := mod_lt i (show 0 < size by omega); omega),
    mod_add_mod]

/-- Half a period of a run is none: at a distance of half an element from the
ones' start or end stand other bits. -/
theorem IsRun.not_half (large : 2 < size) :
    ¬ Repeats value (size / 2) := by
  intro half
  obtain ⟨isSize, some, notAll, rotated, bits⟩ := isRun
  obtain ⟨-, atMost⟩ := elementSize_bounds isSize
  have even : size = 2 * (size / 2) := by
    simp only [elementSizes, mem_cons, not_mem_nil, or_false] at isSize
    omega
  have periodic : ∀ i, value.getLsbD (i % size) = decide ((i + rotation) % size < ones) := by
    intro i
    have inside := mod_lt i (show 0 < size by omega)
    rw [bits (i % size) (by omega), mod_add_mod]
  have halved : ∀ i, decide ((i + rotation) % size < ones) =
      decide ((i + size / 2 + rotation) % size < ones) := by
    intro i
    have inside := mod_lt i (show 0 < size by omega)
    have inside' := mod_lt (i + size / 2) (show 0 < size by omega)
    have divides : size / 2 ∣ size := ⟨2, by omega⟩
    rw [← periodic, ← periodic, half _ (by omega), half ((i + size / 2) % size) (by omega),
      Nat.mod_mod_of_dvd _ divides, Nat.mod_mod_of_dvd _ divides, add_mod_right]
  have start := halved (size - rotation)
  have stop := halved (size - rotation + size / 2 - 1)
  rw [show size - rotation + rotation = size by omega, Nat.mod_self,
    show size - rotation + size / 2 + rotation = size / 2 + size by omega, add_mod_right,
    mod_eq_of_lt (show size / 2 < size by omega), decide_eq_decide] at start
  rw [show size - rotation + size / 2 - 1 + rotation = size / 2 - 1 + size by omega,
    show size - rotation + size / 2 - 1 + size / 2 + rotation = size - 1 + size by omega,
    add_mod_right, add_mod_right, mod_eq_of_lt (show size / 2 - 1 < size by omega),
    mod_eq_of_lt (show size - 1 < size by omega), decide_eq_decide] at stop
  omega

theorem IsRun.elementSize_eq :
    elementSize value 64 64 = size := by
  have everything : Repeats value 64 := by
    intro i inside
    rw [mod_eq_of_lt inside]
  obtain ⟨isFound, repeats, shortest⟩ :=
    @elementSize_spec value 64 64 (by decide) everything (Nat.le_refl _)
  generalize elementSize value 64 64 = found at isFound repeats shortest
  have isSize := isRun.1
  -- a period of half an element follows from every shorter one
  have halfOf : ∀ {short long : ℕ}, short ∈ elementSizes → long ∈ elementSizes → short < long →
      Repeats value short → Repeats value (long / 2) := by
    intro short long isShort isLong less repeats i inside
    have divides : short ∣ long / 2 := by
      simp only [elementSizes, mem_cons, not_mem_nil, or_false] at isShort isLong
      rcases isShort with rfl | rfl | rfl | rfl | rfl | rfl <;> omega
    have atMost := (elementSize_bounds isLong).2
    have smaller := mod_lt i (show 0 < long / 2 by
      have atLeast := (elementSize_bounds isLong).1
      omega)
    rw [repeats i inside, repeats (i % (long / 2)) (by omega), Nat.mod_mod_of_dvd _ divides]
  rcases Nat.lt_trichotomy found size with shorter | same | longer
  · exact absurd (halfOf isFound isSize shorter repeats)
      (isRun.not_half (by have := (elementSize_bounds isFound).1; omega))
  · exact same
  · exact absurd (halfOf isSize isFound longer isRun.repeats)
      (shortest (by have := (elementSize_bounds isSize).1; omega))

end

end Runs

section Rotations

variable {value : BitVec 64} {size ones rotation : ℕ}

theorem getLsbD_rotatedRun (isSize : size ∈ elementSizes) (notAll : ones < size)
    (rotated : rotation < size) {i : ℕ} (inside : i < 64) :
    (rotatedRun size ones rotation).getLsbD i =
      (decide (i < size) && decide ((i + rotation) % size < ones)) := by
  obtain ⟨-, atMost⟩ := elementSize_bounds isSize
  have wraps : i < size → (i + rotation) % size =
      if i + rotation < size then i + rotation else i + rotation - size := by
    intro low
    split
    case isTrue early => exact mod_eq_of_lt early
    case isFalse late =>
      rw [Nat.mod_eq_sub_mod (by omega), mod_eq_of_lt (by omega)]
  rw [rotatedRun]
  split
  case isTrue isZero =>
    subst isZero
    rw [getLsbD_lowMask (by omega), ← Bool.decide_and, decide_eq_decide]
    constructor
    · intro low
      exact ⟨by omega, by rwa [Nat.add_zero, mod_eq_of_lt (by omega)]⟩
    · rintro ⟨low, isOne⟩
      rwa [Nat.add_zero, mod_eq_of_lt low] at isOne
  case isFalse nonzero =>
    rw [getLsbD_and_lowMask (by omega), getLsbD_or, getLsbD_ushiftRight,
      getLsbD_shiftLeft, getLsbD_lowMask (by omega), getLsbD_lowMask (by omega)]
    by_cases low : i < size
    · rw [wraps low]
      simp only [low, inside, decide_true, Bool.true_and, Bool.and_true]
      rw [← decide_not, ← Bool.decide_and, ← Bool.decide_or, decide_eq_decide]
      split <;> omega
    · simp [low]

theorem count_rotated (notAll : ones ≤ size) :
    count (fun i => (i + rotation) % size < ones) size = ones := by
  have turned := count_add (fun i => i % size < ones) rotation size
  have plain := count_add (fun i => i % size < ones) size rotation
  have split := count_add (fun i => i % size < ones) ones (size - ones)
  have front : count (fun i => i % size < ones) ones = ones := by
    apply Nat.count_of_forall
    intro i inside
    rwa [mod_eq_of_lt (by omega)]
  have back : count (fun i => (ones + i) % size < ones) (size - ones) = 0 := by
    apply Nat.count_of_forall_not
    intro i inside
    rw [mod_eq_of_lt (by omega)]
    omega
  simp only [Nat.add_mod_left] at plain
  rw [Nat.add_sub_cancel' notAll, front, back] at split
  rw [Nat.add_comm size rotation, turned] at plain
  simp only [Nat.add_comm rotation] at plain
  omega

section

variable (isRun : IsRun value size ones rotation)
include isRun

theorem IsRun.element :
    value &&& lowMask size = rotatedRun size ones rotation := by
  obtain ⟨isSize, -, notAll, rotated, bits⟩ := isRun
  apply eq_of_getLsbD_eq
  intro i inside
  rw [getLsbD_and_lowMask (elementSize_bounds isSize).2,
    getLsbD_rotatedRun isSize notAll rotated inside, bits i inside, Bool.and_comm]

theorem IsRun.ones_eq :
    count (fun bit => (value &&& lowMask size).getLsbD bit = true) size = ones := by
  rw [isRun.element]
  obtain ⟨isSize, -, notAll, rotated, -⟩ := isRun
  have atMost := (elementSize_bounds isSize).2
  refine Eq.trans ?_ (@count_rotated size ones rotation notAll.le)
  rw [Nat.count_eq_card_filter_range, Nat.count_eq_card_filter_range]
  congr 1
  apply Finset.filter_congr
  intro i member
  have low := Finset.mem_range.mp member
  rw [getLsbD_rotatedRun isSize notAll rotated (by omega)]
  simp [low]

theorem IsRun.nontrivial :
    ¬ (value = 0 ∨ ~~~value = 0) := by
  have counted := isRun.ones_eq
  obtain ⟨isSize, some, notAll, -, -⟩ := isRun
  have atMost := (elementSize_bounds isSize).2
  rintro (isZero | isAll)
  · rw [isZero, Nat.count_of_forall_not (by simp)] at counted
    omega
  · have everyBit : value = allOnes 64 := by
      rw [← not_not (b := value), isAll]
      rfl
    rw [everyBit, Nat.count_of_forall] at counted
    · omega
    · intro i inside
      rw [getLsbD_and_lowMask atMost, getLsbD_allOnes]
      simp only [Bool.and_eq_true, decide_eq_true_eq]
      omega

theorem IsRun.found :
    (searchRun value).isSome = true := by
  have some := isRun.2.1
  have notAll := isRun.2.2.1
  rw [searchRun, if_neg isRun.nontrivial]
  simp only [isRun.elementSize_eq, isRun.ones_eq]
  rw [if_neg (by omega), Option.isSome_map, find?_isSome]
  refine ⟨rotation, mem_range.mpr isRun.2.2.2.1, ?_⟩
  exact decide_eq_true isRun.element.symm

end

theorem searchRun_eq_some {fields : LogicalFields} (found : searchRun value = some fields) :
    ∃ size ones rotation, IsRun value size ones rotation ∧
      fields = logicalFields size ones rotation := by
  rw [searchRun] at found
  split at found
  case isTrue => cases found
  case isFalse nontrivial =>
    dsimp only at found
    have everything : Repeats value 64 := by
      intro i inside
      rw [mod_eq_of_lt inside]
    obtain ⟨isSize, repeats, -⟩ :=
      @elementSize_spec value 64 64 (by decide) everything (Nat.le_refl _)
    generalize elementSize value 64 64 = size at found isSize repeats
    obtain ⟨atLeast, atMost⟩ := elementSize_bounds isSize
    have counted := @Nat.count_le (fun bit => (value &&& lowMask size).getLsbD bit = true) _ size
    generalize count (fun bit => (value &&& lowMask size).getLsbD bit = true) size = ones
      at found counted
    split at found
    case isTrue => cases found
    case isFalse proper =>
      obtain ⟨rotation, isRotation, rfl⟩ := Option.map_eq_some_iff.mp found
      have rotated := mem_range.mp (mem_of_find?_eq_some isRotation)
      have same := find?_some isRotation
      rw [decide_eq_true_eq] at same
      refine ⟨size, ones, rotation, ⟨isSize, by omega, by omega, rotated, ?_⟩, rfl⟩
      intro i inside
      have low := mod_lt i (show 0 < size by omega)
      have bit := congrArg (·.getLsbD (i % size)) same
      rw [getLsbD_rotatedRun isSize (by omega) rotated (by omega), getLsbD_and_lowMask atMost,
        ← repeats i inside, mod_add_mod] at bit
      simpa [low] using bit.symm

end Rotations

section Decoding

variable {value : BitVec 64} {size ones rotation width : ℕ}

theorem logicalFields_ones : ∀ len ∈ [1, 2, 3, 4, 5, 6], ∀ ones < 2 ^ len, 0 < ones →
    let fields := logicalFields (2 ^ len) ones 0
    let levels : BitVec 6 := .ofNat 6 (2 ^ len - 1)
    highestSetBit (fields.n.setWidth 1) (fields.imms.setWidth 6) = some len ∧
      fields.imms.setWidth 6 &&& levels ≠ levels ∧
      (fields.imms.setWidth 6 &&& levels).toNat + 1 = ones := by
  decide

theorem logicalFields_rotation : ∀ len ∈ [1, 2, 3, 4, 5, 6], ∀ rotation < 2 ^ len,
    ((BitVec.ofNat 32 rotation).setWidth 6 &&& BitVec.ofNat 6 (2 ^ len - 1)).toNat = rotation := by
  decide

theorem decode_logicalFields (isSize : size ∈ elementSizes) (some : 0 < ones)
    (notAll : ones < size) (rotated : rotation < size) (fits : size ≤ width) :
    (logicalFields size ones rotation).decode width =
      .some (((((allOnes ones).setWidth size).rotateRight rotation).replicate
        (width / size)).setWidth width) := by
  obtain ⟨len, isLen, rfl⟩ : ∃ len ∈ [1, 2, 3, 4, 5, 6], size = 2 ^ len := by
    simp only [elementSizes, mem_cons, not_mem_nil, or_false] at isSize
    rcases isSize with rfl | rfl | rfl | rfl | rfl | rfl
    · exact ⟨1, by decide, rfl⟩
    · exact ⟨2, by decide, rfl⟩
    · exact ⟨3, by decide, rfl⟩
    · exact ⟨4, by decide, rfl⟩
    · exact ⟨5, by decide, rfl⟩
    · exact ⟨6, by decide, rfl⟩
  obtain ⟨isHighest, proper, isOnes⟩ := logicalFields_ones len isLen ones notAll some
  have isRotation := logicalFields_rotation len isLen rotation rotated
  have positive : 1 ≤ len := by
    simp only [mem_cons, not_mem_nil, or_false] at isLen
    omega
  have fields : (logicalFields (2 ^ len) ones rotation).n = (logicalFields (2 ^ len) ones 0).n ∧
      (logicalFields (2 ^ len) ones rotation).imms = (logicalFields (2 ^ len) ones 0).imms ∧
      (logicalFields (2 ^ len) ones rotation).immr = BitVec.ofNat 32 rotation := by
    simp only [logicalFields]
    split <;> exact ⟨rfl, rfl, rfl⟩
  rw [LogicalFields.decode, decodeBitMasks, fields.1, fields.2.1, fields.2.2, isHighest]
  dsimp only
  rw [if_neg (by
    rintro (short | wide | reserved)
    · omega
    · omega
    · exact proper reserved), isOnes, isRotation]

theorem getLsbD_decoded (positive : 0 < size) (notAll : ones < size) (rotated : rotation < size)
    (whole : width / size * size = width) {i : ℕ} (inside : i < width) :
    (((((allOnes ones).setWidth size).rotateRight rotation).replicate
        (width / size)).setWidth width).getLsbD i = decide ((i + rotation) % size < ones) := by
  have low := mod_lt i positive
  rw [getLsbD_setWidth, getLsbD_replicate, getLsbD_rotateRight,
    mod_eq_of_lt rotated, Nat.mul_comm, whole, ← mod_add_mod i]
  simp only [inside, low, decide_true, Bool.true_and, getLsbD_setWidth, getLsbD_allOnes]
  rcases Nat.lt_or_ge (i % size) (size - rotation) with early | late
  · rw [decide_eq_true early, cond_true,
      mod_eq_of_lt (show i % size + rotation < size by omega), ← Bool.decide_and,
      decide_eq_decide]
    omega
  · rw [decide_eq_false (Nat.not_lt.mpr late), cond_false,
      Nat.mod_eq_sub_mod (show size ≤ i % size + rotation by omega),
      mod_eq_of_lt (show i % size + rotation - size < size by omega), ← Bool.decide_and,
      decide_eq_decide]
    omega

theorem IsRun.decode (isRun : IsRun value size ones rotation) (fits : size ≤ width)
    (whole : width / size * size = width) (short : width ≤ 64) :
    (logicalFields size ones rotation).decode width = some (value.setWidth width) := by
  obtain ⟨isSize, some, notAll, rotated, bits⟩ := isRun
  rw [decode_logicalFields isSize some notAll rotated fits]
  refine congrArg Option.some (eq_of_getLsbD_eq fun i inside => ?_)
  rw [getLsbD_decoded (by omega) notAll rotated whole inside, getLsbD_setWidth, bits i (by omega)]
  simp [inside]

/-- A word of two equal halves has a shorter period than itself. -/
theorem IsRun.size_le_half (isRun : IsRun (widened value false) size ones rotation)
    (low : value >>> 32 = 0) : size ≤ 32 := by
  have atMost := (elementSize_bounds isRun.1).2
  have isSize := isRun.1
  by_contra large
  have isWhole : size = 64 := by
    simp only [elementSizes, mem_cons, not_mem_nil, or_false] at isSize
    omega
  refine isRun.not_half (by omega) fun i inside => ?_
  have high : ∀ j, value.getLsbD (32 + j) = false := by
    intro j
    rw [← getLsbD_ushiftRight, low]
    exact getLsbD_zero
  rw [isWhole]
  rcases Nat.lt_or_ge i 32 with first | second
  · rw [mod_eq_of_lt first]
  · obtain ⟨j, rfl⟩ := Nat.exists_eq_add_of_le second
    rw [show (32 + j) % (64 / 2) = j by omega, widened]
    simp only [Bool.false_eq_true, if_false, getLsbD_or, getLsbD_shiftLeft, high,
      show ¬ 32 + j < 32 by omega, show j < 32 by omega, show j < 64 by omega, inside]
    simp

/-- What the search returns is decoded to the value, in a register of either
length. -/
theorem a64LogicalImm_decode {is64 : Bool} {fields : LogicalFields}
    (found : a64LogicalImm value is64 = some fields) :
    if is64 then fields.decode 64 = some value
    else fields.decode 32 = some (value.setWidth 32) ∧ value >>> 32 = 0 := by
  rw [a64LogicalImm] at found
  split at found
  case isTrue => cases found
  case isFalse fits =>
    obtain ⟨size, ones, rotation, isRun, rfl⟩ := searchRun_eq_some found
    have isSize := isRun.1
    have bounds := elementSize_bounds isSize
    cases is64 with
    | true =>
      rw [if_pos rfl, isRun.decode bounds.2 (by
        simp only [elementSizes, mem_cons, not_mem_nil, or_false] at isSize
        rcases isSize with rfl | rfl | rfl | rfl | rfl | rfl <;> rfl) (Nat.le_refl _),
        setWidth_eq]
      rfl
    | false =>
      have low : value >>> 32 = 0 := by simpa using fits
      have half := isRun.size_le_half low
      rw [if_neg (by decide), isRun.decode half (by
        simp only [elementSizes, mem_cons, not_mem_nil, or_false] at isSize
        rcases isSize with rfl | rfl | rfl | rfl | rfl | rfl <;> omega) (by decide)]
      refine ⟨congrArg some (eq_of_getLsbD_eq fun i inside => ?_), low⟩
      simp [widened, inside, show i < 64 by omega]

/-- The search succeeds exactly on repeated runs. -/
theorem a64LogicalImm_isSome_iff {is64 : Bool} :
    (a64LogicalImm value is64).isSome = true ↔
      (is64 = false → value >>> 32 = 0) ∧ IsRepeatedRun (widened value is64) := by
  rw [a64LogicalImm]
  constructor
  · intro found
    split at found
    case isTrue => cases found
    case isFalse fits =>
      obtain ⟨fields, found⟩ := Option.isSome_iff_exists.mp found
      obtain ⟨size, ones, rotation, isRun, -⟩ := searchRun_eq_some found
      refine ⟨fun short => ?_, size, ones, rotation, isRun⟩
      by_contra wide
      exact fits ⟨short, wide⟩
  · rintro ⟨fits, size, ones, rotation, isRun⟩
    rw [if_neg fun wide => wide.2 (fits wide.1)]
    exact isRun.found

end Decoding

end Aburi.Backend.AArch64
