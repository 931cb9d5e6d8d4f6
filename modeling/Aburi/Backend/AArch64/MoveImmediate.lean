import Aburi.Backend.AArch64.BitmaskImmediate

/-!
# Moving an immediate

The alias `mov rd, #imm` is encoded as `movz`, `movn` or `orr`.  The zero register
and the stack pointer share the number 31; a wide move takes it for the first,
`orr` with an immediate for the second.
-/

namespace Aburi.Backend.AArch64

open Option List
open BitVec (eq_of_getLsbD_eq eq_of_toNat_eq getLsbD getLsbD_and getLsbD_extractLsb' getLsbD_not
  getLsbD_setWidth getLsbD_shiftLeft getLsbD_ushiftRight or_zero toNat_ofNat toNat_setWidth zero_or)

def onlyField (value : BitVec 64) (shifts : ℕ) : Option ℕ :=
  (range shifts).find? fun shift =>
    value &&& ~~~((0xFFFF : BitVec 64) <<< (16 * shift)) = 0

def wideWord (base : BitVec 32) (shift : ℕ) (value : BitVec 64) (rd : BitVec 5) : BitVec 32 :=
  base ||| BitVec.ofNat 32 shift <<< 21 ||| (value >>> (16 * shift)).setWidth 32 <<< 5 |||
    rd.setWidth 32

def logicalWord (base : BitVec 32) (fields : LogicalFields) (rn rd : BitVec 5) : BitVec 32 :=
  base ||| fields.n <<< 22 ||| fields.immr <<< 16 ||| fields.imms <<< 10 |||
    rn.setWidth 32 <<< 5 ||| rd.setWidth 32

/-- The immediate as the register takes it. -/
def movValue (is64 : Bool) (imm : BitVec 64) : BitVec 64 :=
  if is64 then imm else imm &&& 0xFFFFFFFF

/-- The row `MovImmAlias` of `encode_row`. -/
def encodeMovImm (is64 : Bool) (rd : BitVec 5) (imm : BitVec 64) : Option (BitVec 32) :=
  let value := movValue is64 imm
  let shifts := if is64 then 4 else 2
  match onlyField value shifts with
  | some shift => some (wideWord (if is64 then 0xD2800000 else 0x52800000) shift value rd)
  | none =>
    let inverted := movValue is64 (~~~value)
    match onlyField inverted shifts with
    | some shift => some (wideWord (if is64 then 0x92800000 else 0x12800000) shift inverted rd)
    | none =>
      (a64LogicalImm value is64).map fun fields =>
        logicalWord (if is64 then 0xB2000000 else 0x32000000) fields 31 rd

structure GprState where
  x : BitVec 5 → BitVec 64
  sp : BitVec 64

/-- Number 31 read as the zero register. -/
def GprState.read (state : GprState) (r : BitVec 5) : BitVec 64 :=
  if r = 31 then 0 else state.x r

/-- Number 31 written as the zero register. -/
def GprState.write (state : GprState) (r : BitVec 5) (value : BitVec 64) : GprState :=
  if r = 31 then state else { state with x := Function.update state.x r value }

/-- Number 31 written as the stack pointer. -/
def GprState.writeSp (state : GprState) (r : BitVec 5) (value : BitVec 64) : GprState :=
  if r = 31 then { state with sp := value } else state.write r value

/-- The immediate of a logical instruction; the short form has no bit `N`. -/
def logicalOperand (sf : Bool) (n : BitVec 1) (imms immr : BitVec 6) : Option (BitVec 64) :=
  if sf then decodeBitMasks 64 n imms immr
  else if n = 1 then none
  else (decodeBitMasks 32 n imms immr).map (·.setWidth 64)

/-- `movz`, `movn` and `orr` with an immediate, as the architecture decodes them;
other words are not looked at. -/
def execMove (word : BitVec 32) (state : GprState) : Option GprState :=
  let sf := word.extractLsb' 31 1 == 1
  let opc := word.extractLsb' 29 2
  let rd := word.extractLsb' 0 5
  if word.extractLsb' 23 6 = 0b100101 then
    let hw := (word.extractLsb' 21 2).toNat
    let imm := (word.extractLsb' 5 16).setWidth 64 <<< (16 * hw)
    if sf = false ∧ 2 ≤ hw then none
    else if opc = 0b10 then some (state.write rd (movValue sf imm))
    else if opc = 0b00 then some (state.write rd (movValue sf (~~~imm)))
    else none
  else if word.extractLsb' 23 6 = 0b100100 ∧ opc = 0b01 then
    (logicalOperand sf (word.extractLsb' 22 1) (word.extractLsb' 10 6)
      (word.extractLsb' 16 6)).map fun imm =>
        state.writeSp rd (movValue sf (state.read (word.extractLsb' 5 5) ||| imm))
  else none

section Fields

theorem getLsbD_of_small {width bits j : ℕ} {x : BitVec width} (small : x.toNat < 2 ^ bits)
    (outside : bits ≤ j) : x.getLsbD j = false :=
  Nat.testBit_lt_two_pow (small.trans_le (Nat.pow_le_pow_right Nat.two_pos outside))

section Extract

variable {width start length place : ℕ} {x : BitVec width}

theorem extract_above (above : place ≤ start) (inside : start + length ≤ 32) :
    (x.setWidth 32 <<< place).extractLsb' start length = x.extractLsb' (start - place) length := by
  apply eq_of_getLsbD_eq
  intro i short
  rw [getLsbD_extractLsb', getLsbD_extractLsb', getLsbD_shiftLeft,
    getLsbD_setWidth, Nat.sub_add_comm above]
  simp [show start + i < 32 by omega, show ¬ start + i < place by omega,
    show start - place + i < 32 by omega]

theorem extract_below (below : start + length ≤ place) :
    (x.setWidth 32 <<< place).extractLsb' start length = BitVec.ofNat length 0 := by
  apply eq_of_getLsbD_eq
  intro i short
  simp [show start + i < place by omega]

theorem extract_outside (outside : width ≤ start) : x.extractLsb' start length = BitVec.ofNat length 0 := by
  apply eq_of_getLsbD_eq
  intro i _
  rw [getLsbD_extractLsb', BitVec.getLsbD_of_ge x _ (by omega)]
  simp

end Extract

variable {top : BitVec 9} {rd rn : BitVec 5}

theorem wideWord_fields {shift : ℕ} {value : BitVec 64} (isShift : shift < 4)
    (isField : (value >>> (16 * shift)).toNat < 2 ^ 16) :
    let word := wideWord (top.setWidth 32 <<< 23) shift value rd
    word.extractLsb' 31 1 = top.extractLsb' 8 1 ∧ word.extractLsb' 23 6 = top.extractLsb' 0 6 ∧
      word.extractLsb' 29 2 = top.extractLsb' 6 2 ∧ word.extractLsb' 21 2 = .ofNat 2 shift ∧
      word.extractLsb' 5 16 = (value >>> (16 * shift)).setWidth 16 ∧
      word.extractLsb' 0 5 = rd := by
  have isHw : BitVec.ofNat 32 shift = (BitVec.ofNat 2 shift).setWidth 32 := by
    apply eq_of_toNat_eq
    simp only [toNat_setWidth, toNat_ofNat]
    omega
  have isImm : (value >>> (16 * shift)).setWidth 32 =
      ((value >>> (16 * shift)).setWidth 16).setWidth 32 := by
    apply eq_of_toNat_eq
    simp only [toNat_setWidth]
    omega
  rw [wideWord, isHw, isImm]
  generalize (value >>> (16 * shift)).setWidth 16 = imm
  generalize BitVec.ofNat 2 shift = hw
  simp (disch := omega) only [BitVec.extractLsb'_or, extract_above, extract_below,
    BitVec.extractLsb'_setWidth_of_le, extract_outside, or_zero, zero_or,
    Nat.reduceSub, BitVec.extractLsb'_eq_self, and_self]

theorem logicalWord_fields {fields : LogicalFields} (isN : fields.n.toNat < 2 ^ 1)
    (isImmr : fields.immr.toNat < 2 ^ 6) (isImms : fields.imms.toNat < 2 ^ 6) :
    let word := logicalWord (top.setWidth 32 <<< 23) fields rn rd
    word.extractLsb' 31 1 = top.extractLsb' 8 1 ∧ word.extractLsb' 23 6 = top.extractLsb' 0 6 ∧
      word.extractLsb' 29 2 = top.extractLsb' 6 2 ∧ word.extractLsb' 22 1 = fields.n.setWidth 1 ∧
      word.extractLsb' 16 6 = fields.immr.setWidth 6 ∧
      word.extractLsb' 10 6 = fields.imms.setWidth 6 ∧
      word.extractLsb' 5 5 = rn ∧ word.extractLsb' 0 5 = rd := by
  have typed : ∀ {bits : ℕ} (x : BitVec 32), x.toNat < 2 ^ bits →
      x = (x.setWidth bits).setWidth 32 := by
    intro bits x small
    apply eq_of_toNat_eq
    rw [toNat_setWidth, toNat_setWidth, Nat.mod_eq_of_lt small,
      Nat.mod_eq_of_lt x.isLt]
  rw [logicalWord, typed _ isN, typed _ isImmr, typed _ isImms]
  generalize fields.n.setWidth 1 = n
  generalize fields.immr.setWidth 6 = immr
  generalize fields.imms.setWidth 6 = imms
  simp (disch := omega) only [BitVec.extractLsb'_or, extract_above, extract_below,
    BitVec.extractLsb'_setWidth_of_le, extract_outside, or_zero, zero_or,
    Nat.reduceSub, BitVec.extractLsb'_eq_self, BitVec.setWidth_setWidth_of_le, BitVec.setWidth_eq,
    and_self]

end Fields

/-- One wide move encodes the value. -/
def WideMove (is64 : Bool) (imm : BitVec 64) : Prop :=
  let shifts := if is64 then 4 else 2
  onlyField (movValue is64 imm) shifts ≠ none ∨
    onlyField (movValue is64 (~~~movValue is64 imm)) shifts ≠ none

/-- The instruction writes the immediate to the register, and nothing else. -/
def MovImmExact (is64 : Bool) (rd : BitVec 5) (imm : BitVec 64) : Prop :=
  ∀ word state, encodeMovImm is64 rd imm = some word →
    execMove word state = some (state.write rd (movValue is64 imm))

/-- The search for bitmask immediates is complete and its result is decoded to
the value. -/
def LogicalImmExact (value : BitVec 64) (is64 : Bool) : Prop :=
  ((a64LogicalImm value is64).isSome = true ↔
    (is64 = false → value >>> 32 = 0) ∧ IsRepeatedRun (widened value is64)) ∧
  ∀ fields, a64LogicalImm value is64 = some fields →
    if is64 then fields.decode 64 = some value
    else fields.decode 32 = some (value.setWidth 32) ∧ value >>> 32 = 0

section Moves

variable {is64 : Bool} {rd : BitVec 5} {imm value : BitVec 64}

theorem movValue_movValue : movValue is64 (movValue is64 value) = movValue is64 value := by
  cases is64 with
  | true => rfl
  | false =>
    simp only [movValue, Bool.false_eq_true, if_false, BitVec.and_assoc, BitVec.and_self]

theorem movValue_not_not :
    movValue is64 (~~~movValue is64 (~~~movValue is64 value)) = movValue is64 value := by
  cases is64 with
  | true => exact BitVec.not_not
  | false =>
    apply eq_of_getLsbD_eq
    intro i inside
    simp only [movValue, Bool.false_eq_true, if_false, getLsbD_and, getLsbD_not,
      inside, decide_true, Bool.true_and]
    cases value.getLsbD i <;> cases getLsbD (0xFFFFFFFF : BitVec 64) i <;> rfl

/-- The half-word that is found is the whole value. -/
theorem onlyField_spec {shifts shift : ℕ} (found : onlyField value shifts = some shift) :
    shift < shifts ∧ (value >>> (16 * shift)).toNat < 2 ^ 16 ∧
      (value >>> (16 * shift)) <<< (16 * shift) = value := by
  have inside := List.mem_range.mp (mem_of_find?_eq_some found)
  have others := find?_some found
  rw [decide_eq_true_eq] at others
  have zeros : ∀ j < 64, j < 16 * shift ∨ 16 * shift + 16 ≤ j → value.getLsbD j = false := by
    intro j short apart
    have bit := congrArg (·.getLsbD j) others
    simp only [getLsbD_and, getLsbD_not, getLsbD_shiftLeft, short,
      decide_true, Bool.true_and] at bit
    have outside : (!decide (j < 16 * shift) &&
        getLsbD (0xFFFF : BitVec 64) (j - 16 * shift)) = false := by
      rcases apart with before | behind
      · simp [before]
      · rw [@getLsbD_of_small 64 16 _ _ (by decide) (by omega), Bool.and_false]
    rw [outside] at bit
    simpa using bit
  refine ⟨inside, ?_, ?_⟩
  · apply Nat.lt_pow_two_of_testBit
    intro j large
    rw [← getLsbD, getLsbD_ushiftRight]
    rcases Nat.lt_or_ge (16 * shift + j) 64 with short | long
    · exact zeros _ short (.inr (by omega))
    · exact BitVec.getLsbD_of_ge _ _ long
  · apply eq_of_getLsbD_eq
    intro j short
    rw [getLsbD_shiftLeft, getLsbD_ushiftRight]
    by_cases before : j < 16 * shift
    · rw [zeros j short (.inl before)]
      simp [before]
    · rw [Nat.add_sub_cancel' (by omega)]
      simp [short, before]

theorem logicalFields_small {size ones rotation : ℕ} (isSize : size ∈ elementSizes)
    (notAll : ones < size) (rotated : rotation < size) :
    (logicalFields size ones rotation).n.toNat < 2 ^ 1 ∧
      (logicalFields size ones rotation).immr.toNat < 2 ^ 6 ∧
      (logicalFields size ones rotation).imms.toNat < 2 ^ 6 := by
  have atMost := (elementSize_bounds isSize).2
  rw [logicalFields]
  split
  · refine ⟨Nat.lt_of_sub_eq_succ rfl, ?_, ?_⟩
    · rw [toNat_ofNat]
      omega
    · rw [toNat_ofNat]
      omega
  · refine ⟨Nat.lt_of_sub_eq_succ rfl, ?_, ?_⟩
    · rw [toNat_ofNat]
      omega
    · rw [BitVec.toNat_and]
      exact Nat.lt_succ_of_le Nat.and_le_right

theorem execMove_wideWord {top : BitVec 9} {shift : ℕ} (sf : (top.extractLsb' 8 1 == 1) = is64)
    (isWide : top.extractLsb' 0 6 = 0b100101)
    (found : onlyField value (if is64 then 4 else 2) = some shift) (state : GprState) :
    execMove (wideWord (top.setWidth 32 <<< 23) shift value rd) state =
      if top.extractLsb' 6 2 = 0b10 then some (state.write rd (movValue is64 value))
      else if top.extractLsb' 6 2 = 0b00 then some (state.write rd (movValue is64 (~~~value)))
      else none := by
  obtain ⟨inside, small, whole⟩ := onlyField_spec found
  have few : shift < 4 := by
    split at inside <;> omega
  obtain ⟨isSf, isKind, isOpc, isHw, isImm, isRd⟩ := @wideWord_fields top rd shift value few small
  have place : (BitVec.ofNat 2 shift).toNat = shift := by
    rw [toNat_ofNat]
    omega
  have field : ((value >>> (16 * shift)).setWidth 16).setWidth 64 = value >>> (16 * shift) := by
    apply eq_of_toNat_eq
    simp only [toNat_setWidth]
    omega
  rw [execMove]
  simp only [isSf, isKind, isOpc, isHw, isImm, isRd, sf, isWide, if_true, place, field, whole]
  rw [if_neg]
  rintro ⟨rfl, high⟩
  rw [if_neg (by decide)] at inside
  omega

theorem execMove_logicalWord {fields : LogicalFields}
    (found : a64LogicalImm (movValue is64 imm) is64 = some fields) (state : GprState) :
    execMove (logicalWord (if is64 then 0xB2000000 else 0x32000000) fields 31 rd) state =
      some (state.writeSp rd (movValue is64 imm)) := by
  have decoded := a64LogicalImm_decode found
  obtain ⟨n, immr, imms⟩ : fields.n.toNat < 2 ^ 1 ∧ fields.immr.toNat < 2 ^ 6 ∧
      fields.imms.toNat < 2 ^ 6 := by
    rw [a64LogicalImm] at found
    split at found
    case isTrue => cases found
    case isFalse =>
      obtain ⟨size, ones, rotation, isRun, rfl⟩ := searchRun_eq_some found
      exact logicalFields_small isRun.1 isRun.2.2.1 isRun.2.2.2.1
  have operand : logicalOperand is64 (fields.n.setWidth 1) (fields.imms.setWidth 6)
      (fields.immr.setWidth 6) = some (movValue is64 imm) := by
    cases is64 with
    | true => exact decoded
    | false =>
      obtain ⟨decoded, short⟩ := decoded
      rw [LogicalFields.decode] at decoded
      -- an element of 64 bits is not decoded for 32
      have notWhole : fields.n.setWidth 1 ≠ 1 := by
        intro isOne
        have whole : ∀ imms : BitVec 6, highestSetBit 1 imms = some 6 := by decide
        rw [isOne, decodeBitMasks, whole] at decoded
        dsimp only at decoded
        rw [if_pos (.inr (.inl (by decide)))] at decoded
        cases decoded
      rw [logicalOperand, if_neg (by decide), if_neg notWhole, decoded, map_some]
      refine congrArg some (eq_of_getLsbD_eq fun i inside => ?_)
      rw [getLsbD_setWidth, getLsbD_setWidth]
      rcases Nat.lt_or_ge i 32 with low | high
      · simp [inside, low]
      · obtain ⟨j, rfl⟩ := Nat.exists_eq_add_of_le high
        rw [← getLsbD_ushiftRight, short]
        simp
  obtain ⟨top, isTop, sf, isLogical, isOrr⟩ : ∃ top : BitVec 9,
      (if is64 then 0xB2000000 else 0x32000000 : BitVec 32) = top.setWidth 32 <<< 23 ∧
        (top.extractLsb' 8 1 == 1) = is64 ∧ top.extractLsb' 0 6 = 0b100100 ∧
        top.extractLsb' 6 2 = 0b01 := by
    cases is64 with
    | true => exact ⟨0x164, by decide⟩
    | false => exact ⟨0x64, by decide⟩
  obtain ⟨isSf, isKind, isOpc, isN, isImmr, isImms, isRn, isRd⟩ :=
    @logicalWord_fields top rd 31 fields n immr imms
  rw [isTop, execMove]
  simp only [isSf, isKind, isOpc, isN, isImmr, isImms, isRn, isRd, sf, isLogical, isOrr, operand]
  rw [if_neg (by decide), if_pos ⟨trivial, trivial⟩, map_some, GprState.read, if_pos rfl,
    BitVec.ofNat_eq_ofNat, zero_or, movValue_movValue]

theorem wideBase_eq : (if is64 then 0xD2800000 else 0x52800000 : BitVec 32) =
      (if is64 then 0x1A5 else 0xA5 : BitVec 9).setWidth 32 <<< 23 ∧
    (if is64 then 0x92800000 else 0x12800000 : BitVec 32) =
      (if is64 then 0x125 else 0x25 : BitVec 9).setWidth 32 <<< 23 := by
  cases is64 <;> decide

theorem encodeMovImm_wide (wide : WideMove is64 imm) : MovImmExact is64 rd imm := by
  intro word state isWord
  rw [encodeMovImm] at isWord
  dsimp only at isWord
  split at isWord
  case h_1 shift found =>
    cases isWord
    rw [wideBase_eq.1, execMove_wideWord (by cases is64 <;> decide) (by cases is64 <;> decide)
      found, if_pos (by cases is64 <;> decide), movValue_movValue]
  case h_2 isNone =>
    split at isWord
    case h_1 shift found =>
      cases isWord
      rw [wideBase_eq.2, execMove_wideWord (by cases is64 <;> decide) (by cases is64 <;> decide)
        found, if_neg (by cases is64 <;> decide), if_pos (by cases is64 <;> decide),
        movValue_not_not]
    case h_2 isNone' => exact absurd wide (by simp [WideMove, isNone, isNone'])

theorem encodeMovImm_logical (notWide : ¬ WideMove is64 imm) :
    encodeMovImm is64 rd imm = (a64LogicalImm (movValue is64 imm) is64).map fun fields =>
      logicalWord (if is64 then 0xB2000000 else 0x32000000) fields 31 rd := by
  rw [WideMove, not_or, not_not, not_not] at notWide
  rw [encodeMovImm]
  dsimp only
  rw [notWide.1, notWide.2]

end Moves

/-- Everything but `orr` with the zero register: that instruction has the stack
pointer for its destination. -/
theorem bitmaskMoves_exact_iff (is64 : Bool) (rd : BitVec 5) (imm : BitVec 64) :
    LogicalImmExact imm is64 ∧ MovImmExact is64 rd imm ↔
      (rd = 31 → WideMove is64 imm ∨ ¬ IsRepeatedRun (widened (movValue is64 imm) is64)) := by
  have search : LogicalImmExact imm is64 :=
    ⟨a64LogicalImm_isSome_iff, fun _ found => a64LogicalImm_decode found⟩
  have short : is64 = false → movValue is64 imm >>> 32 = 0 := by
    rintro rfl
    apply eq_of_getLsbD_eq
    intro i _
    rw [movValue, if_neg (by decide), getLsbD_ushiftRight, getLsbD_and,
      @getLsbD_of_small 64 32 _ (0xFFFFFFFF : BitVec 64) (by decide) (by omega), Bool.and_false]
    exact BitVec.getLsbD_zero.symm
  rw [and_iff_right search]
  constructor
  · rintro exact rfl
    by_contra neither
    rw [not_or, not_not] at neither
    obtain ⟨notWide, isRun⟩ := neither
    obtain ⟨fields, found⟩ := Option.isSome_iff_exists.mp
      (a64LogicalImm_isSome_iff.mpr ⟨short, isRun⟩)
    have isWord := @encodeMovImm_logical is64 31 imm notWide
    rw [found] at isWord
    -- a stack pointer that is not the value is overwritten
    have effect := exact _ ⟨fun _ => 0, ~~~movValue is64 imm⟩ isWord
    rw [execMove_logicalWord found] at effect
    have written := congrArg GprState.sp (Option.some.inj effect)
    simp [GprState.writeSp, GprState.write] at written
  · intro condition word state isWord
    by_cases wide : WideMove is64 imm
    · exact encodeMovImm_wide wide word state isWord
    · rw [encodeMovImm_logical wide, map_eq_some_iff] at isWord
      obtain ⟨fields, found, rfl⟩ := isWord
      have isRun := (a64LogicalImm_isSome_iff.mp (Option.isSome_iff_exists.mpr ⟨_, found⟩)).2
      have notZero : rd ≠ 31 := fun isZero =>
        (condition isZero).elim wide fun notRun => notRun isRun
      rw [execMove_logicalWord found, GprState.writeSp, if_neg notZero]

/-- `mov xzr, #0x5555555555555555` sets the stack pointer. -/
theorem movToZero_sets_sp : ¬ MovImmExact true 31 0x5555555555555555 := by
  intro exact
  have effect := exact 0xB200F3FF ⟨fun _ => 0, 0⟩ (by decide)
  have written := congrArg (Option.map GprState.sp) effect
  revert written
  decide

end Aburi.Backend.AArch64
