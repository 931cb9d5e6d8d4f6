import Aburi.Backend.AArch64.Frame
import Mathlib.Data.List.GetD
import Mathlib.Algebra.Order.Ring.Nat

/-!
# Areas of a frame

From the base up: the arguments of calls, the saved registers and the frame
objects.  The offsets are 64-bit words; they are the offsets of a layout in the
natural numbers, reduced, and the areas stay apart exactly when that fits.
-/

namespace Aburi.Backend

open List BitVec

open Aburi.Backend.AArch64 (Word alignUp placeObjects)

def roundUp (value align : ℕ) : ℕ := (value + align - 1) / align * align

/-- The offsets of objects from a running end on. -/
def objectStarts : ℕ → List FrameObject → List ℕ
  | _, [] => []
  | running, object :: objects =>
    let start := roundUp running (max 1 object.align)
    start :: objectStarts (start + max 1 object.size) objects

def objectsEnd : ℕ → List FrameObject → ℕ
  | running, [] => running
  | running, object :: objects =>
    objectsEnd (roundUp running (max 1 object.align) + max 1 object.size) objects

/-- Where the objects start, behind the saved registers. -/
def objectsBase (outgoing width count : ℕ) : ℕ := roundUp outgoing 16 + roundUp (width * count) 16

/-- The size of a frame with `count` saved registers of `width` bytes. -/
def frameBytes (outgoing width count : ℕ) (objects : List FrameObject) : ℕ :=
  roundUp (objectsEnd (objectsBase outgoing width count) objects) 16

/-- An alignment is a power of two in 32 bits and a size has 64. -/
structure FrameObject.WellFormed (object : FrameObject) : Prop where
  align : ∃ k < 32, object.align = 2 ^ k
  size : object.size < 2 ^ 64

/-- What the types of a machine function and the verifier after register
allocation promise about the inputs of a layout. -/
structure FrameInputs {Op : Type} (isSaved : ℕ → Bool) (function : MFunction Op) : Prop where
  outgoing : function.maxOutgoingBytes < 2 ^ 32
  objects : ∀ object ∈ function.frameObjects, object.WellFormed
  csrs : ∀ phys ∈ function.usedCsrs, isSaved phys = true

/-- In a frame that grows the arguments are pushed below it. -/
def outgoingBytes {Op : Type} (function : MFunction Op) : ℕ :=
  if function.hasDynamicStack then 0 else function.maxOutgoingBytes

section Rounding

variable {value align : ℕ}

theorem le_roundUp (positive : 0 < align) : value ≤ roundUp value align := by
  have split := Nat.div_add_mod (value + align - 1) align
  have small := Nat.mod_lt (value + align - 1) positive
  rw [roundUp, Nat.mul_comm]
  omega

theorem dvd_roundUp : align ∣ roundUp value align := Dvd.intro_left _ rfl

theorem roundUp_le {bound : ℕ} (positive : 0 < align) (multiple : align ∣ bound)
    (below : value ≤ bound) : roundUp value align ≤ bound := by
  obtain ⟨factor, rfl⟩ := multiple
  rw [roundUp, Nat.mul_comm align factor]
  apply Nat.mul_le_mul_right
  apply Nat.le_of_lt_succ
  rw [Nat.div_lt_iff_lt_mul positive, Nat.succ_mul, Nat.mul_comm factor]
  omega

theorem roundUp_zero (positive : 0 < align) : roundUp 0 align = 0 := by
  have small : (0 + align - 1) / align = 0 := Nat.div_eq_of_lt (by omega)
  rw [roundUp, small, Nat.zero_mul]

end Rounding

theorem and_not_mask (value : Word) {k : ℕ} (bounded : k < 64) :
    value &&& ~~~(BitVec.ofNat 64 (2 ^ k) - 1) = (value >>> k) <<< k := by
  have mask : BitVec.ofNat 64 (2 ^ k) - 1 = BitVec.ofNat 64 (2 ^ k - 1) := by
    apply eq_of_toNat_eq
    have positive := Nat.two_pow_pos k
    have small : 2 ^ k < 2 ^ 64 := Nat.pow_lt_pow_right (by decide) bounded
    have one : (1 : Word).toNat = 1 := rfl
    simp only [toNat_sub, toNat_ofNat, one]
    omega
  rw [mask]
  apply eq_of_getLsbD_eq
  intro i inside
  simp only [getLsbD_and, getLsbD_not, getLsbD_ofNat,
    Nat.testBit_two_pow_sub_one, getLsbD_shiftLeft, getLsbD_ushiftRight]
  by_cases low : i < k
  · simp [low, inside]
  · simp [low, inside, Nat.add_sub_cancel' (Nat.le_of_not_lt low)]

theorem alignUp_ofNat (value : ℕ) {k : ℕ} (bounded : k < 64) :
    alignUp (BitVec.ofNat 64 value) (BitVec.ofNat 64 (2 ^ k)) =
      BitVec.ofNat 64 (roundUp value (2 ^ k)) := by
  have positive := Nat.two_pow_pos k
  have sum : BitVec.ofNat 64 value + BitVec.ofNat 64 (2 ^ k) - 1 =
      BitVec.ofNat 64 (value + 2 ^ k - 1) := by
    apply eq_of_toNat_eq
    have one : (1 : Word).toNat = 1 := rfl
    simp only [toNat_sub, toNat_add, toNat_ofNat, one]
    omega
  have factor : 2 ^ 64 = 2 ^ k * 2 ^ (64 - k) := by
    rw [← Nat.pow_add, Nat.add_sub_cancel' bounded.le]
  rw [alignUp, sum, and_not_mask _ bounded]
  apply eq_of_toNat_eq
  rw [toNat_shiftLeft, toNat_ushiftRight, toNat_ofNat, toNat_ofNat,
    Nat.shiftLeft_eq, Nat.shiftRight_eq_div_pow, roundUp]
  calc (value + 2 ^ k - 1) % 2 ^ 64 / 2 ^ k * 2 ^ k % 2 ^ 64
    _ = (value + 2 ^ k - 1) / 2 ^ k % 2 ^ (64 - k) * 2 ^ k % 2 ^ 64 := by
        rw [factor, Nat.mod_mul_right_div_self]
    _ = (value + 2 ^ k - 1) / 2 ^ k * 2 ^ k % 2 ^ 64 := by
        rw [factor, Nat.mul_comm (2 ^ k), Nat.mul_mod_mul_right, Nat.mul_mod_mul_right, Nat.mod_mod]

variable {object : FrameObject}

theorem max_one_align (isWellFormed : object.WellFormed) :
    ∃ k < 32, object.align = 2 ^ k ∧ max 1 object.align = 2 ^ k := by
  obtain ⟨k, bounded, isPower⟩ := isWellFormed.align
  refine ⟨k, bounded, isPower, ?_⟩
  rw [isPower]
  exact Nat.max_eq_right Nat.one_le_two_pow

theorem placeObjects_ofNat {objects : List FrameObject}
    (wellFormed : ∀ object ∈ objects, object.WellFormed) (running : ℕ) :
    placeObjects (BitVec.ofNat 64 running) objects =
      ((objectStarts running objects).map (BitVec.ofNat 64),
        BitVec.ofNat 64 (objectsEnd running objects)) := by
  induction objects generalizing running with
  | nil => rfl
  | cons object objects ih =>
    obtain ⟨k, bounded, -, isMax⟩ := max_one_align (wellFormed object (.head _))
    have rest := ih fun other later => wellFormed other (.tail _ later)
    have start := alignUp_ofNat running (show k < 64 by omega)
    rw [placeObjects, isMax, start, ← ofNat_add, rest]
    simp only [objectStarts, objectsEnd, isMax, map_cons]

theorem slotsFrom_append (width : ℕ) (start : Word) (first second : List ℕ) :
    slotsFrom width start (first ++ second) = slotsFrom width start first ++
      slotsFrom width (start + BitVec.ofNat 64 (width * first.length)) second := by
  induction first generalizing start with
  | nil => simp [slotsFrom]
  | cons phys rest ih =>
    have next : start + BitVec.ofNat 64 width + BitVec.ofNat 64 (width * rest.length) =
        start + BitVec.ofNat 64 (width * (rest.length + 1)) := by
      rw [BitVec.add_assoc, ← ofNat_add, Nat.mul_succ, Nat.add_comm width]
    rw [List.cons_append, slotsFrom, ih, next]
    rfl

theorem forall_slotsFrom {width : ℕ} {start : Word} {regs : List ℕ} {property : Word → Prop} :
    (∀ slot ∈ slotsFrom width start regs, property slot.2) ↔
      ∀ index < regs.length, property (start + BitVec.ofNat 64 (width * index)) := by
  induction regs generalizing start with
  | nil => simp [slotsFrom]
  | cons phys rest ih =>
    have next : ∀ index, start + BitVec.ofNat 64 width + BitVec.ofNat 64 (width * index) =
        start + BitVec.ofNat 64 (width * (index + 1)) := by
      intro index
      rw [BitVec.add_assoc, ← ofNat_add, Nat.mul_succ, Nat.add_comm width]
    rw [slotsFrom, forall_mem_cons, ih]
    simp only [next]
    constructor
    · rintro ⟨first, others⟩ index inside
      cases index with
      | zero => simpa using first
      | succ index => exact others index (Nat.lt_of_succ_lt_succ inside)
    · intro all
      exact ⟨by simpa using all 0 (Nat.succ_pos _),
        fun index inside => all (index + 1) (Nat.succ_lt_succ inside)⟩

/-- A register of so many bytes that is saved at an address, or restored from it. -/
inductive SlotAccess where
  | save (width phys : ℕ) (address : Word)
  | restore (width phys : ℕ) (address : Word)
  deriving DecidableEq

def saves (width : ℕ) (slots : List (ℕ × Word)) : List SlotAccess :=
  slots.map fun slot => .save width slot.1 slot.2

def restores (width : ℕ) (slots : List (ℕ × Word)) : List SlotAccess :=
  slots.map fun slot => .restore width slot.1 slot.2

theorem saves_append (width : ℕ) (first second : List (ℕ × Word)) :
    saves width (first ++ second) = saves width first ++ saves width second := map_append

theorem restores_append (width : ℕ) (first second : List (ℕ × Word)) :
    restores width (first ++ second) = restores width first ++ restores width second :=
  map_append

/-- Ranges of bytes, each with its start and its length. -/
abbrev Area := ℕ × ℕ

def Area.Apart (first second : Area) : Prop :=
  first.1 + first.2 ≤ second.1 ∨ second.1 + second.2 ≤ first.1

structure AreasFit (areas : List Area) (size : ℕ) : Prop where
  apart : areas.Pairwise Area.Apart
  inside : ∀ area ∈ areas, area.1 + area.2 ≤ size

/-- An object takes a byte at least. -/
def objectAreas (starts : List ℕ) (objects : List FrameObject) : List Area :=
  List.zipWith (fun start object => (start, max 1 object.size)) starts objects

def slotAreas (outgoing : Word) (width count : ℕ) : List Area :=
  (List.range count).map fun index =>
    ((outgoing + BitVec.ofNat 64 (width * index)).toNat, width)

/-- The outgoing arguments, the slots of the saved registers and the objects. -/
def frameAreas (outgoing : Word) (width count : ℕ) (offsets : List Word)
    (objects : List FrameObject) : List Area :=
  (0, outgoing.toNat) :: (slotAreas outgoing width count ++
    objectAreas (offsets.map BitVec.toNat) objects)

variable {running : ℕ}

section Objects

variable {objects : List FrameObject}

theorem align_pos (object : FrameObject) : 0 < max 1 object.align :=
  Nat.lt_of_lt_of_le Nat.one_pos (Nat.le_max_left _ _)

theorem size_pos (object : FrameObject) : 0 < max 1 object.size :=
  Nat.lt_of_lt_of_le Nat.one_pos (Nat.le_max_left _ _)

theorem le_objectsEnd (objects : List FrameObject) (running : ℕ) :
    running ≤ objectsEnd running objects := by
  induction objects generalizing running with
  | nil => exact le_rfl
  | cons object objects ih =>
    have step := @le_roundUp running _ (align_pos object)
    exact step.trans ((Nat.le_add_right _ _).trans (ih _))

theorem mem_objectAreas {area : Area}
    (member : area ∈ objectAreas (objectStarts running objects) objects) :
    running ≤ area.1 ∧ 0 < area.2 ∧ area.1 + area.2 ≤ objectsEnd running objects := by
  induction objects generalizing running with
  | nil => cases member
  | cons object objects ih =>
    have step := @le_roundUp running _ (align_pos object)
    cases member with
    | head => exact ⟨step, size_pos object, le_objectsEnd _ _⟩
    | tail _ later =>
      obtain ⟨lower, positive, upper⟩ := ih later
      exact ⟨step.trans ((Nat.le_add_right _ _).trans lower), positive, upper⟩

theorem objectAreas_pos {starts : List ℕ} {area : Area}
    (member : area ∈ objectAreas starts objects) : 0 < area.2 := by
  obtain ⟨index, inside, rfl⟩ := mem_iff_getElem.mp member
  simp only [objectAreas, getElem_zipWith]
  exact size_pos _

theorem objectAreas_apart (objects : List FrameObject) (running : ℕ) :
    (objectAreas (objectStarts running objects) objects).Pairwise Area.Apart := by
  induction objects generalizing running with
  | nil => exact .nil
  | cons object objects ih =>
    refine .cons ?_ (ih _)
    intro area later
    exact .inl (mem_objectAreas later).1

/-- The reduced offsets are the offsets when the last object ends in time. -/
theorem objectStarts_toNat (fits : objectsEnd running objects ≤ 2 ^ 64) :
    ((objectStarts running objects).map (BitVec.ofNat 64)).map BitVec.toNat =
      objectStarts running objects := by
  induction objects generalizing running with
  | nil => rfl
  | cons object objects ih =>
    have below : roundUp running (max 1 object.align) < 2 ^ 64 := by
      have last := le_objectsEnd objects (roundUp running (max 1 object.align) + max 1 object.size)
      have positive := size_pos object
      rw [objectsEnd] at fits
      omega
    rw [objectStarts, map_cons, map_cons, ih fits, toNat_ofNat, Nat.mod_eq_of_lt below]

end Objects

/-- No object starts behind the last word: one that did would start at zero,
where an area has started already. -/
theorem objects_fit {objects : List FrameObject} {size : ℕ}
    (small : ∀ object ∈ objects, max 1 object.align ∣ 2 ^ 64) (bounded : running ≤ 2 ^ 64)
    (isSize : size = roundUp (objectsEnd running objects) 16 % 2 ^ 64) (fit : AreasFit (objectAreas
      (((objectStarts running objects).map (BitVec.ofNat 64)).map BitVec.toNat) objects) size)
    (covered : 0 < running → 0 < size ∧ ∀ area ∈ objectAreas
      (((objectStarts running objects).map (BitVec.ofNat 64)).map BitVec.toNat) objects,
        area.1 ≠ 0) :
    roundUp (objectsEnd running objects) 16 < 2 ^ 64 := by
  induction objects generalizing running with
  | nil =>
    have atMost : roundUp running 16 ≤ 2 ^ 64 := roundUp_le (by decide) (by decide) bounded
    refine Nat.lt_of_le_of_ne atMost fun isWhole => ?_
    rw [isWhole, Nat.mod_self] at isSize
    have empty : ¬ 0 < running := fun positive =>
      absurd (covered positive).1 (by rw [isSize]; exact lt_irrefl _)
    rw [objectsEnd, Nat.eq_zero_of_not_pos empty, roundUp_zero (by decide)] at isWhole
    cases isWhole
  | cons object objects ih =>
    have atMost := roundUp_le (align_pos object) (small object (.head _)) bounded
    simp only [objectStarts, map_cons, objectAreas, zipWith_cons_cons] at fit covered
    have start : roundUp running (max 1 object.align) < 2 ^ 64 := by
      refine Nat.lt_of_le_of_ne atMost fun isWhole => ?_
      have moved : 0 < running := by
        refine Nat.pos_of_ne_zero fun isZero => ?_
        rw [isZero, roundUp_zero (align_pos object)] at isWhole
        cases isWhole
      refine (covered moved).2 _ (.head _) ?_
      rw [isWhole]
      rfl
    rw [toNat_ofNat, Nat.mod_eq_of_lt start] at fit covered
    have ends := fit.inside _ (.head _)
    refine ih (fun other later => small other (.tail _ later)) (by dsimp only at ends; omega)
      isSize ⟨(pairwise_cons.mp fit.apart).2, fun area later => fit.inside area (.tail _ later)⟩ ?_
    intro _
    refine ⟨by dsimp only at ends; omega, fun area later isZero => ?_⟩
    by_cases moved : 0 < running
    · exact (covered moved).2 area (.tail _ later) isZero
    · have atZero : roundUp running (max 1 object.align) = 0 := by
        rw [Nat.eq_zero_of_not_pos moved, roundUp_zero (align_pos object)]
      have nonempty := objectAreas_pos later
      rcases (pairwise_cons.mp fit.apart).1 area later with below | above
      · dsimp only at below
        omega
      · dsimp only at above
        omega

/-- The offsets of the layout, as `lower_frame` computes them. -/
def placed (outgoing width count : ℕ) (objects : List FrameObject) : List Word × Word :=
  placeObjects (alignUp (BitVec.ofNat 64 outgoing) 16 +
    alignUp (BitVec.ofNat 64 (width * count)) 16) objects

section Fit

variable {outgoing width count : ℕ} {objects : List FrameObject}

theorem alignUp_sixteen (value : ℕ) :
    alignUp (BitVec.ofNat 64 value) 16 = BitVec.ofNat 64 (roundUp value 16) :=
  alignUp_ofNat value (k := 4) (by decide)

theorem placed_ofNat (wellFormed : ∀ object ∈ objects, object.WellFormed) :
    placed outgoing width count objects =
      ((objectStarts (objectsBase outgoing width count) objects).map (BitVec.ofNat 64),
        BitVec.ofNat 64 (objectsEnd (objectsBase outgoing width count) objects)) := by
  rw [placed, alignUp_sixteen, alignUp_sixteen, ← ofNat_add]
  exact placeObjects_ofNat wellFormed _

theorem frameSize_ofNat (wellFormed : ∀ object ∈ objects, object.WellFormed) :
    alignUp (placed outgoing width count objects).2 16 =
      BitVec.ofNat 64 (frameBytes outgoing width count objects) := by
  rw [placed_ofNat wellFormed, alignUp_sixteen]
  rfl

/-- Slots whose end lies in the frame start at their offset. -/
theorem slots_inside {size : ℕ} (bounded : outgoing < 2 ^ 32) (sizeBounded : size < 2 ^ 64)
    (inside : ∀ area ∈ slotAreas (alignUp (BitVec.ofNat 64 outgoing) 16) width count,
      area.1 + area.2 ≤ size) {index : ℕ} (isSlot : index < count) :
    (alignUp (BitVec.ofNat 64 outgoing) 16 + BitVec.ofNat 64 (width * index)).toNat =
        roundUp outgoing 16 + width * index ∧
      roundUp outgoing 16 + width * index + width ≤ size := by
  have sum : ∀ index, alignUp (BitVec.ofNat 64 outgoing) 16 + BitVec.ofNat 64 (width * index) =
      BitVec.ofNat 64 (roundUp outgoing 16 + width * index) := by
    intro index
    rw [alignUp_sixteen, ← ofNat_add]
  have whole : ∀ index, index < count → roundUp outgoing 16 + width * index < 2 ^ 64 →
      (alignUp (BitVec.ofNat 64 outgoing) 16 + BitVec.ofNat 64 (width * index)).toNat =
        roundUp outgoing 16 + width * index ∧
      roundUp outgoing 16 + width * index + width ≤ size := by
    intro index isSlot below
    have isSum : (alignUp (BitVec.ofNat 64 outgoing) 16 + BitVec.ofNat 64 (width * index)).toNat =
        roundUp outgoing 16 + width * index := by
      rw [sum, toNat_ofNat, Nat.mod_eq_of_lt below]
    have member := inside _ (List.mem_map_of_mem (mem_range.mpr isSlot))
    rw [isSum] at member
    exact ⟨isSum, member⟩
  induction index with
  | zero =>
    apply whole 0 isSlot
    have rounded : roundUp outgoing 16 ≤ 2 ^ 32 := roundUp_le (by decide) (by decide) bounded.le
    rw [Nat.mul_zero]
    omega
  | succ index ih =>
    apply whole _ isSlot
    have before := (ih (Nat.lt_of_succ_lt isSlot)).2
    rw [Nat.mul_succ]
    omega

theorem dvd_words (wellFormed : ∀ object ∈ objects, object.WellFormed) :
    ∀ object ∈ objects, max 1 object.align ∣ 2 ^ 64 := by
  intro object member
  obtain ⟨k, bounded, -, isMax⟩ := max_one_align (wellFormed object member)
  rw [isMax]
  exact Nat.pow_dvd_pow 2 (by omega)

theorem outgoing_toNat (bounded : outgoing < 2 ^ 32) :
    (alignUp (BitVec.ofNat 64 outgoing) 16).toNat = roundUp outgoing 16 := by
  have rounded : roundUp outgoing 16 ≤ 2 ^ 32 := roundUp_le (by decide) (by decide) bounded.le
  rw [alignUp_sixteen, toNat_ofNat]
  exact Nat.mod_eq_of_lt (by omega)

theorem length_objectStarts (objects : List FrameObject) (running : ℕ) :
    (objectStarts running objects).length = objects.length := by
  induction objects generalizing running with
  | nil => rfl
  | cons object objects ih => exact congrArg (· + 1) (ih _)

/-- In a frame that has a size, objects start at their offsets. -/
theorem offset_toNat (wellFormed : ∀ object ∈ objects, object.WellFormed)
    (fits : frameBytes outgoing width count objects < 2 ^ 64) {index : ℕ}
    (isObject : index < objects.length) :
    ∃ start, (objectStarts (objectsBase outgoing width count) objects)[index]? = some start ∧
      ((placed outgoing width count objects).1.getD index 0).toNat = start ∧
      start < frameBytes outgoing width count objects := by
  have isStart : index < (objectStarts (objectsBase outgoing width count) objects).length := by
    rwa [length_objectStarts]
  have lastFits : objectsEnd (objectsBase outgoing width count) objects ≤
      frameBytes outgoing width count objects := le_roundUp (by decide)
  have member : ((objectStarts (objectsBase outgoing width count) objects)[index],
      max 1 objects[index].size) ∈
        objectAreas (objectStarts (objectsBase outgoing width count) objects) objects := by
    rw [objectAreas]
    apply mem_iff_getElem.mpr
    refine ⟨index, ?_, by rw [getElem_zipWith]⟩
    rw [length_zipWith]
    exact Nat.lt_min.mpr ⟨isStart, isObject⟩
  obtain ⟨-, positive, upper⟩ := mem_objectAreas member
  dsimp only at positive upper
  refine ⟨_, List.getElem?_eq_getElem isStart, ?_, by omega⟩
  rw [placed_ofNat wellFormed, List.getD_eq_getElem?_getD, getElem?_map,
    List.getElem?_eq_getElem isStart, Option.map_some, Option.getD_some, toNat_ofNat]
  exact Nat.mod_eq_of_lt (by omega)

/-- The areas of a frame of `count` registers. -/
def areas (outgoing width count : ℕ) (objects : List FrameObject) : List Area :=
  frameAreas (alignUp (BitVec.ofNat 64 outgoing) 16) width count
    (placed outgoing width count objects).1 objects

theorem areas_fit (bounded : outgoing < 2 ^ 32)
    (wellFormed : ∀ object ∈ objects, object.WellFormed)
    (fits : frameBytes outgoing width count objects < 2 ^ 64) :
    AreasFit (areas outgoing width count objects) (frameBytes outgoing width count objects) := by
  have lastFits : objectsEnd (objectsBase outgoing width count) objects ≤
      frameBytes outgoing width count objects := le_roundUp (by decide)
  have baseFits := le_objectsEnd objects (objectsBase outgoing width count)
  have starts := objectStarts_toNat (lastFits.trans fits.le)
  have slotsEnd : width * count ≤ roundUp (width * count) 16 := le_roundUp (by decide)
  have isBase : objectsBase outgoing width count =
    roundUp outgoing 16 + roundUp (width * count) 16 := rfl
  have slots : slotAreas (alignUp (BitVec.ofNat 64 outgoing) 16) width count =
      (List.range count).map fun index => (roundUp outgoing 16 + width * index, width) := by
    apply map_congr_left
    intro index isSlot
    have below : width * index ≤ width * count := Nat.mul_le_mul_left width (mem_range.mp isSlot).le
    rw [alignUp_sixteen, ← ofNat_add, toNat_ofNat, Nat.mod_eq_of_lt (by omega)]
  have slotEnd : ∀ index < count, width * index + width ≤ width * count := by
    intro index isSlot
    have step := Nat.mul_le_mul_left width (Nat.succ_le_of_lt isSlot)
    rwa [Nat.mul_succ] at step
  rw [areas, frameAreas, slots, placed_ofNat wellFormed, starts, outgoing_toNat bounded]
  constructor
  · apply pairwise_cons.mpr
    refine ⟨?_, pairwise_append.mpr ⟨?_, objectAreas_apart _ _, ?_⟩⟩
    · intro area member
      refine .inl ?_
      rw [Nat.zero_add]
      rcases mem_append.mp member with isSlot | isObject
      · obtain ⟨index, -, rfl⟩ := List.mem_map.mp isSlot
        exact Nat.le_add_right _ _
      · have lower := (mem_objectAreas isObject).1
        omega
    · apply pairwise_map.mpr
      refine pairwise_lt_range.imp fun {first second} isBefore => .inl ?_
      have step := Nat.mul_le_mul_left width (Nat.succ_le_of_lt isBefore)
      rw [Nat.mul_succ] at step
      dsimp only
      omega
    · intro slot isSlot object isObject
      obtain ⟨index, inside, rfl⟩ := List.mem_map.mp isSlot
      have upper := slotEnd index (mem_range.mp inside)
      have lower := (mem_objectAreas isObject).1
      refine .inl ?_
      dsimp only
      omega
  · intro area member
    rcases mem_cons.mp member with rfl | member
    · dsimp only
      omega
    · rcases mem_append.mp member with isSlot | isObject
      · obtain ⟨index, inside, rfl⟩ := List.mem_map.mp isSlot
        have upper := slotEnd index (mem_range.mp inside)
        dsimp only
        omega
      · exact (mem_objectAreas isObject).2.2.trans lastFits

section

variable (bounded : outgoing < 2 ^ 32) (positive : 0 < width)
  (wellFormed : ∀ object ∈ objects, object.WellFormed)
include bounded positive wellFormed

theorem fits_of_areas
    (fit : AreasFit (areas outgoing width count objects)
      (alignUp (placed outgoing width count objects).2 16).toNat) :
    frameBytes outgoing width count objects < 2 ^ 64 := by
  generalize isSize : (alignUp (placed outgoing width count objects).2 16).toNat = size at fit
  have sizeBounded : size < 2 ^ 64 := isSize ▸ BitVec.isLt _
  have sizeEq : size = frameBytes outgoing width count objects % 2 ^ 64 := by
    rw [← isSize, frameSize_ofNat wellFormed, toNat_ofNat]
  rw [areas, frameAreas, placed_ofNat wellFormed, outgoing_toNat bounded] at fit
  obtain ⟨apart, inside⟩ := fit
  obtain ⟨argsApart, restApart⟩ := pairwise_cons.mp apart
  obtain ⟨-, objectsApart, slotsApart⟩ := pairwise_append.mp restApart
  have argsInside := inside _ (.head _)
  have slots := fun index (isSlot : index < count) =>
    slots_inside bounded sizeBounded
      (fun area member => inside area (.tail _ (mem_append_left _ member))) isSlot
  have isMultiple : 16 ∣ 2 ^ 64 - roundUp outgoing 16 := Nat.dvd_sub (by decide) dvd_roundUp
  have slotsEnd : roundUp outgoing 16 + width * count < 2 ^ 64 := by
    cases count with
    | zero => dsimp only at argsInside; omega
    | succ count =>
      have last := (slots count (Nat.lt_succ_self _)).2
      rw [Nat.mul_succ]
      omega
  have baseBounded : objectsBase outgoing width count ≤ 2 ^ 64 := by
    have rest := roundUp_le (by decide) isMultiple (show width * count ≤ _ by omega)
    rw [objectsBase]
    omega
  refine objects_fit (dvd_words wellFormed) baseBounded sizeEq
    ⟨objectsApart, fun area member => inside area (.tail _ (mem_append_right _ member))⟩ ?_
  -- the arguments or the first slot start at zero
  intro moved
  by_cases hasArgs : 0 < roundUp outgoing 16
  · refine ⟨by dsimp only at argsInside; omega, fun area member isZero => ?_⟩
    have nonempty := objectAreas_pos member
    rcases argsApart area (mem_append_right _ member) with below | above
    · dsimp only at below
      omega
    · dsimp only at above
      omega
  · have hasSlots : 0 < count := by
      refine Nat.pos_of_ne_zero fun isNone => ?_
      rw [objectsBase, isNone, Nat.mul_zero, roundUp_zero (by decide)] at moved
      exact hasArgs moved
    obtain ⟨first, firstEnd⟩ := slots 0 hasSlots
    refine ⟨by omega, fun area member isZero => ?_⟩
    have nonempty := objectAreas_pos member
    have isSlot := List.mem_map_of_mem (f := fun index =>
      ((alignUp (BitVec.ofNat 64 outgoing) 16 + BitVec.ofNat 64 (width * index)).toNat, width))
      (mem_range.mpr hasSlots)
    rcases slotsApart _ isSlot area member with below | above
    · dsimp only at below
      omega
    · dsimp only at above
      omega

/-- The areas are apart and inside the frame exactly when the frame has a size. -/
theorem areasFit_iff :
    AreasFit (areas outgoing width count objects)
        (alignUp (placed outgoing width count objects).2 16).toNat ↔
      frameBytes outgoing width count objects < 2 ^ 64 := by
  constructor
  · exact fits_of_areas bounded positive wellFormed
  · intro fits
    rw [frameSize_ofNat wellFormed, toNat_ofNat, Nat.mod_eq_of_lt fits]
    exact areas_fit bounded wellFormed fits

end

theorem align_dvd_start {index : ℕ} (isObject : objects[index]? = some object) :
    max 1 object.align ∣ (objectStarts running objects).getD index 0 := by
  induction objects generalizing running index with
  | nil => cases isObject
  | cons head objects ih =>
    cases index with
    | zero =>
      cases isObject
      exact dvd_roundUp
    | succ index => exact ih isObject

theorem align_dvd_offset (wellFormed : ∀ object ∈ objects, object.WellFormed) {index : ℕ}
    (isObject : objects[index]? = some object) :
    object.align ∣ ((placed outgoing width count objects).1.getD index 0).toNat := by
  obtain ⟨k, bounded, isPower, isMax⟩ :=
    max_one_align (wellFormed object (mem_of_getElem? isObject))
  have start := @align_dvd_start _ (objectsBase outgoing width count) _ _ isObject
  have isOffset : (placed outgoing width count objects).1.getD index 0 =
      BitVec.ofNat 64 ((objectStarts (objectsBase outgoing width count) objects).getD index 0) := by
    rw [placed_ofNat wellFormed]
    exact List.getD_map _ _ (BitVec.ofNat 64)
  rw [isOffset, toNat_ofNat, isPower]
  rw [isMax] at start
  exact (Nat.dvd_mod_iff (Nat.pow_dvd_pow 2 (by omega))).mpr start

variable {below : ℕ}

/-- A frame whose base is `below` bytes off a multiple of sixteen aligns the
objects that this distance aligns, and no others. -/
theorem aligned_iff (wellFormed : ∀ object ∈ objects, object.WellFormed)
    (isBelow : below = 8 ∨ below = 16) :
    (∀ base : Word, 16 ∣ base.toNat + below → ∀ index object, objects[index]? = some object →
        object.align ∣ (base + (placed outgoing width count objects).1.getD index 0).toNat) ↔
      ∀ object ∈ objects, object.align ≤ below := by
  constructor
  · intro aligned object member
    obtain ⟨index, isObject⟩ := mem_iff_getElem?.mp member
    obtain ⟨k, bounded, isPower, -⟩ := max_one_align (wellFormed object member)
    have start := @align_dvd_offset _ outgoing width count _ wellFormed _ isObject
    by_contra large
    rw [isPower] at large start
    have sixteen : 2 ^ 4 ∣ 2 ^ k := by
      apply Nat.pow_dvd_pow
      have exceeds : 2 ^ 3 < 2 ^ k := by omega
      exact (Nat.pow_lt_pow_iff_right (by decide)).mp exceeds
    have isAligned := fun base isBase => aligned base isBase index object isObject
    rw [isPower] at isAligned
    generalize (placed outgoing width count objects).1.getD index 0 = offset at isAligned start
    have offsetBounded := offset.isLt
    obtain ⟨blocks, isOffset⟩ := sixteen.trans start
    have atBase := isAligned (BitVec.ofNat 64 (2 ^ 65 - offset.toNat - below)) ?_
    · have isAddress : (BitVec.ofNat 64 (2 ^ 65 - offset.toNat - below) + offset).toNat =
          2 ^ 64 - below := by
        rw [toNat_add, toNat_ofNat]
        omega
      rw [isAddress] at atBase
      have whole : 2 ^ k ∣ 2 ^ 64 := Nat.pow_dvd_pow 2 (by omega)
      have dvdBelow : 2 ^ k ∣ below := by
        have rest := Nat.dvd_sub whole atBase
        rwa [Nat.sub_sub_self (by omega)] at rest
      exact large (Nat.le_of_dvd (by omega) dvdBelow)
    · rw [toNat_ofNat]
      omega
  · intro small base isBase index object isObject
    have member := mem_of_getElem? isObject
    obtain ⟨k, bounded, isPower, -⟩ := max_one_align (wellFormed object member)
    have dvdOffset := @align_dvd_offset _ outgoing width count _ wellFormed _ isObject
    have atMost := small object member
    rw [isPower] at atMost dvdOffset ⊢
    have dvdBelow : 2 ^ k ∣ below := by
      rcases isBelow with rfl | rfl
      · exact Nat.pow_dvd_pow 2 ((Nat.pow_le_pow_iff_right (by decide)).mp atMost : k ≤ 3)
      · exact Nat.pow_dvd_pow 2 ((Nat.pow_le_pow_iff_right (by decide)).mp atMost : k ≤ 4)
    have dvdSixteen : 2 ^ k ∣ 16 := dvdBelow.trans (by rcases isBelow with rfl | rfl <;> decide)
    have dvdBase := (Nat.dvd_add_left dvdBelow).mp (dvdSixteen.trans isBase)
    rw [toNat_add]
    exact (Nat.dvd_mod_iff (Nat.pow_dvd_pow 2 (by omega))).mpr (Nat.dvd_add dvdBase dvdOffset)

/-- The distances are the true ones as far as 32 bits carry them. -/
theorem cfaOffset_iff {slot frameSize : Word} (inside : slot.toNat < frameSize.toNat)
    (small : below ≤ 16) :
    cfaOffset slot frameSize below = (slot.toNat : Int) - frameSize.toNat - below ↔
      frameSize.toNat + below ≤ 2 ^ 31 + slot.toNat := by
  have isDistance : (slot - frameSize - BitVec.ofNat 64 below).toNat =
      2 ^ 64 + slot.toNat - frameSize.toNat - below ∨
      (slot - frameSize - BitVec.ofNat 64 below).toNat =
        2 ^ 65 + slot.toNat - frameSize.toNat - below := by
    simp only [toNat_sub, toNat_ofNat]
    omega
  rw [cfaOffset, toInt_setWidth, Int.bmod]
  split <;> omega

/-- Where the slots of the registers lie, seen from the canonical frame address. -/
def slotDistances (width below : ℕ) (saveBase frameSize : Word) (csrs : List ℕ) : List (ℕ × Int) :=
  (slotsFrom width saveBase csrs).map fun slot =>
    (slot.1, (slot.2.toNat : Int) - frameSize.toNat - below)

theorem csrCfaOffsets_iff {csrs : List ℕ} (bounded : outgoing < 2 ^ 32) (positive : 0 < width)
    (wellFormed : ∀ object ∈ objects, object.WellFormed) (small : below ≤ 16)
    (fits : frameBytes outgoing width csrs.length objects < 2 ^ 64) :
    csrCfaOffsets width below (alignUp (BitVec.ofNat 64 outgoing) 16)
        (alignUp (placed outgoing width csrs.length objects).2 16) csrs =
      slotDistances width below (alignUp (BitVec.ofNat 64 outgoing) 16)
        (alignUp (placed outgoing width csrs.length objects).2 16) csrs ↔
    csrs = [] ∨
      frameBytes outgoing width csrs.length objects + below ≤ 2 ^ 31 + roundUp outgoing 16 := by
  have isSize : (alignUp (placed outgoing width csrs.length objects).2 16).toNat =
      frameBytes outgoing width csrs.length objects := by
    rw [frameSize_ofNat wellFormed, toNat_ofNat, Nat.mod_eq_of_lt fits]
  have slots := fun index (isSlot : index < csrs.length) =>
    slots_inside bounded fits (fun area member =>
      (areas_fit bounded wellFormed fits).inside area (.tail _ (mem_append_left _ member))) isSlot
  have atSlot : ∀ index < csrs.length,
      (cfaOffset (alignUp (BitVec.ofNat 64 outgoing) 16 + BitVec.ofNat 64 (width * index))
          (alignUp (placed outgoing width csrs.length objects).2 16) below =
        ((alignUp (BitVec.ofNat 64 outgoing) 16 + BitVec.ofNat 64 (width * index)).toNat : Int) -
          (alignUp (placed outgoing width csrs.length objects).2 16).toNat - below ↔
      frameBytes outgoing width csrs.length objects + below ≤
        2 ^ 31 + (roundUp outgoing 16 + width * index)) := by
    intro index isSlot
    obtain ⟨isStart, inside⟩ := slots index isSlot
    rw [cfaOffset_iff (by omega) small, isSize, isStart]
  have pointwise := @forall_slotsFrom width (alignUp (BitVec.ofNat 64 outgoing) 16) csrs (fun slot =>
      cfaOffset slot (alignUp (placed outgoing width csrs.length objects).2 16) below =
        (slot.toNat : Int) - (alignUp (placed outgoing width csrs.length objects).2 16).toNat - below)
  rw [csrCfaOffsets, slotDistances, map_inj_left]
  simp only [Prod.mk.injEq, true_and]
  rw [pointwise]
  constructor
  · intro all
    cases csrs with
    | nil => exact .inl rfl
    | cons phys rest =>
      have first := (atSlot 0 (Nat.succ_pos _)).mp (all 0 (Nat.succ_pos _))
      exact .inr (by simpa using first)
  · rintro (rfl | enough) index isSlot
    · cases isSlot
    · exact (atSlot index isSlot).mpr (by omega)

theorem sixteen_dvd_frameSize (wellFormed : ∀ object ∈ objects, object.WellFormed) :
    16 ∣ (alignUp (placed outgoing width count objects).2 16).toNat := by
  rw [frameSize_ofNat wellFormed, toNat_ofNat]
  exact (Nat.dvd_mod_iff (by decide)).mpr dvd_roundUp

/-- A frame below an aligned stack pointer, with `below` bytes between them. -/
theorem base_iff {frameSize sp : Word} (multiple : 16 ∣ frameSize.toNat) :
    16 ∣ sp.toNat ↔ 16 ∣ (sp - BitVec.ofNat 64 below - frameSize).toNat + below := by
  obtain ⟨blocks, isMultiple⟩ := multiple
  simp only [toNat_sub, toNat_ofNat]
  constructor
  · rintro ⟨units, isUnits⟩
    omega
  · rintro ⟨units, isUnits⟩
    omega

/-- When the areas, the alignment and the recorded distances of a layout are right. -/
theorem layout_iff {csrs : List ℕ} (bounded : outgoing < 2 ^ 32) (positive : 0 < width)
    (wellFormed : ∀ object ∈ objects, object.WellFormed) (isBelow : below = 8 ∨ below = 16) :
    let saveBase := alignUp (BitVec.ofNat 64 outgoing) 16
    let offsets := (placed outgoing width csrs.length objects).1
    let frameSize := alignUp (placed outgoing width csrs.length objects).2 16
    (AreasFit (frameAreas saveBase width csrs.length offsets objects) frameSize.toNat ∧
      (∀ base : Word, 16 ∣ base.toNat + below → ∀ index object, objects[index]? = some object →
        object.align ∣ (base + offsets.getD index 0).toNat) ∧
      csrCfaOffsets width below saveBase frameSize csrs =
        slotDistances width below saveBase frameSize csrs) ↔
      (∀ object ∈ objects, object.align ≤ below) ∧
      frameBytes outgoing width csrs.length objects < 2 ^ 64 ∧
      (csrs = [] ∨
        frameBytes outgoing width csrs.length objects + below ≤ 2 ^ 31 + roundUp outgoing 16) := by
  intro saveBase offsets frameSize
  have fitIff := @areasFit_iff _ _ csrs.length _ bounded positive wellFormed
  have alignedIff := @aligned_iff outgoing width csrs.length _ _ wellFormed isBelow
  have recordedIff := @csrCfaOffsets_iff _ _ _ below csrs bounded positive wellFormed (by omega)
  constructor
  · rintro ⟨fit, aligned, recorded⟩
    have fits := fitIff.mp fit
    exact ⟨alignedIff.mp aligned, fits, (recordedIff fits).mp recorded⟩
  · rintro ⟨small, fits, near⟩
    exact ⟨fitIff.mpr fits, alignedIff.mpr small, (recordedIff fits).mpr near⟩

theorem outgoing_word {Op : Type} (function : MFunction Op) :
    (if function.hasDynamicStack then 0
      else alignUp (BitVec.ofNat 64 function.maxOutgoingBytes) 16) =
      alignUp (BitVec.ofNat 64 (outgoingBytes function)) 16 := by
  rw [outgoingBytes]
  split
  · decide
  · rfl

theorem outgoingBytes_lt {Op : Type} {isSaved : ℕ → Bool} {function : MFunction Op}
    (inputs : FrameInputs isSaved function) : outgoingBytes function < 2 ^ 32 := by
  rw [outgoingBytes]
  split
  · decide
  · exact inputs.outgoing

end Fit

end Aburi.Backend
