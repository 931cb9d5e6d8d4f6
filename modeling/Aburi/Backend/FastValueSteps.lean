import Aburi.Backend.FastValues

/-!
# Where the fast allocator keeps values

Between two steps of the walk every value that is still needed is in the
register its virtual register is bound to, or else in its spill slot.
-/

namespace Aburi.Backend.FastRegAllocator

open List Function Nat Option

variable {Op : Type}

theorem lowBits_lowBits (bits : ℕ) (value : BitVec 128) :
    lowBits bits (lowBits bits value) = lowBits bits value := by
  apply BitVec.eq_of_toNat_eq
  simp only [lowBits, BitVec.toNat_setWidth]
  rcases Nat.le_total bits 128 with small | large
  · have bound : value.toNat % 2 ^ bits < 2 ^ 128 :=
      (mod_lt _ (Nat.two_pow_pos bits)).trans_le (Nat.pow_le_pow_right (by decide) small)
    rw [mod_eq_of_lt bound, mod_mod, mod_eq_of_lt bound]
  · have bound : value.toNat < 2 ^ bits :=
      value.isLt.trans_le (Nat.pow_le_pow_right (by decide) large)
    rw [mod_eq_of_lt bound, mod_eq_of_lt value.isLt, mod_eq_of_lt bound,
      mod_eq_of_lt value.isLt]

/-- Where a virtual register keeps its value. -/
def Located (function : MFunction Op) (state : AllocState) (contents : Contents) (vreg : ℕ)
    (value : BitVec 128) : Prop :=
  match state.vregToPhys.lookup vreg with
  | some phys =>
    lowBits (vregBits function vreg) (contents.regs phys) = lowBits (vregBits function vreg) value
  | none => ∃ slot, state.spillSlots.lookup vreg = some slot ∧
      lowBits (vregBits function vreg) (contents.frame slot) =
        lowBits (vregBits function vreg) value

/-- The contents after the code inserted so far. -/
def InstState.contents (access : Op → Option Access) (base : Contents)
    (current : InstState Op) : Contents :=
  runInserted access current.inserted base

/-- What the walk keeps true of its maps. -/
structure WellPlaced (target : Target Op) (function : MFunction Op)
    (current : InstState Op) : Prop where
  coherent : current.state.Coherent
  ordered : ∀ vreg phys, current.state.vregToPhys.lookup vreg = some phys →
    phys ∈ target.order (function.vregClass vreg)
  slotRange : ∀ vreg slot, current.state.spillSlots.lookup vreg = some slot →
    function.frameObjects.length ≤ slot ∧ slot < current.function.frameObjects.length
  slotsApart : ∀ vreg other slot, current.state.spillSlots.lookup vreg = some slot →
    current.state.spillSlots.lookup other = some slot → vreg = other
  classes : current.function.vregClasses = function.vregClasses
  word : current.function.wordBytes = function.wordBytes
  objects : function.frameObjects.length ≤ current.function.frameObjects.length

/-- The values of `values` are where the maps say. -/
structure Holding (target : Target Op) (access : Op → Option Access) (function : MFunction Op)
    (base : Contents) (values : ℕ → Option (BitVec 128)) (current : InstState Op) : Prop
    extends WellPlaced target function current where
  located : ∀ vreg value, values vreg = some value →
    Located function current.state (current.contents access base) vreg value

section Steps

variable {target : Target Op} {access : Op → Option Access} {function : MFunction Op}
  {base : Contents} {values : ℕ → Option (BitVec 128)} {current : InstState Op}

namespace WellPlaced

theorem vregClass (placed : WellPlaced target function current) (vreg : ℕ) :
    current.function.vregClass vreg = function.vregClass vreg := by
  rw [MFunction.vregClass, placed.classes, MFunction.vregClass]

end WellPlaced

/-- An access between a register and the slot of a virtual register. -/
theorem insertMem_contents (opcode : Op) (vreg phys : ℕ) :
    (current.insertMem opcode vreg phys).contents access base =
      runAccess access (current.contents access base)
        { opcode := opcode
          operands := [.reg (.phys phys), .frame (current.spillSlotFor vreg).1 0, .imm 0] } := by
  have inserted : (current.spillSlotFor vreg).2.inserted = current.inserted := by
    unfold InstState.spillSlotFor
    cases current.state.spillSlots.lookup vreg <;> rfl
  simp [InstState.contents, InstState.insertMem, inserted, runInserted, foldl_append]

theorem WellPlaced.spillSlot (placed : WellPlaced target function current) (opcode : Op)
    (vreg phys : ℕ) :
    WellPlaced target function (current.insertMem opcode vreg phys) ∧
      (current.insertMem opcode vreg phys).state.spillSlots.lookup vreg =
        some (current.spillSlotFor vreg).1 ∧
      ∀ other, other ≠ vreg →
        (current.insertMem opcode vreg phys).state.spillSlots.lookup other =
          current.state.spillSlots.lookup other := by
  cases found : current.state.spillSlots.lookup vreg with
  | some slot =>
    have slotFor : current.spillSlotFor vreg = (slot, current) := by
      simp [InstState.spillSlotFor, found]
    simp only [InstState.insertMem, slotFor]
    refine ⟨?_, found, fun _ _ => trivial⟩
    exact ⟨placed.coherent, placed.ordered, placed.slotRange, placed.slotsApart,
      placed.classes, placed.word, placed.objects⟩
  | none =>
    simp only [InstState.insertMem, InstState.spillSlotFor, found, MFunction.newFrameObject]
    refine ⟨⟨placed.coherent, placed.ordered, ?_, ?_, placed.classes, placed.word, ?_⟩, ?_, ?_⟩
    · intro other slot isSlot
      simp only [length_append, length_singleton]
      by_cases same : other = vreg
      · subst same
        obtain rfl : current.function.frameObjects.length = slot := by simpa using isSlot
        exact ⟨placed.objects, lt_succ_self _⟩
      · rw [AList.lookup_insert_ne same] at isSlot
        have range := placed.slotRange other slot isSlot
        omega
    · intro left right slot isLeft isRight
      have fresh : ∀ other, current.state.spillSlots.lookup other ≠
          some current.function.frameObjects.length := by
        intro other isSlot
        exact Nat.lt_irrefl _ (placed.slotRange other _ isSlot).2
      by_cases sameLeft : left = vreg <;> by_cases sameRight : right = vreg
      · exact sameLeft.trans sameRight.symm
      · subst sameLeft
        obtain rfl : current.function.frameObjects.length = slot := by simpa using isLeft
        rw [AList.lookup_insert_ne sameRight] at isRight
        exact absurd isRight (fresh right)
      · subst sameRight
        obtain rfl : current.function.frameObjects.length = slot := by simpa using isRight
        rw [AList.lookup_insert_ne sameLeft] at isLeft
        exact absurd isLeft (fresh left)
      · rw [AList.lookup_insert_ne sameLeft] at isLeft
        rw [AList.lookup_insert_ne sameRight] at isRight
        exact placed.slotsApart left right slot isLeft isRight
    · have := placed.objects
      simp only [length_append, length_singleton]
      omega
    · simp
    · intro other different
      exact AList.lookup_insert_ne different

variable (spillCode : SpillCode target access function)

include spillCode in
theorem makeSpill_contents (placed : WellPlaced target function current) (vreg phys : ℕ) :
    (current.makeSpill target vreg phys).contents access base =
      { current.contents access base with
        frame := update (current.contents access base).frame
          (current.spillSlotFor vreg).1
          (lowBits (vregBits function vreg) ((current.contents access base).regs phys)) } := by
  rw [InstState.makeSpill, insertMem_contents, placed.vregClass]
  simp only [runAccess, spillCode.spill]
  rfl

include spillCode in
theorem makeReload_contents (placed : WellPlaced target function current) (vreg phys : ℕ) :
    (current.makeReload target vreg phys).contents access base =
      { current.contents access base with
        regs := update (current.contents access base).regs phys
          (lowBits (vregBits function vreg)
            ((current.contents access base).frame (current.spillSlotFor vreg).1)) } := by
  rw [InstState.makeReload, insertMem_contents, placed.vregClass]
  simp only [runAccess, spillCode.reload]
  rfl

@[simp] theorem unassign_contents (vreg : ℕ) :
    (current.unassign vreg).contents access base = current.contents access base := rfl

variable {vreg : ℕ}

theorem unassign_lookup_ne {state : AllocState} {other : ℕ} (different : other ≠ vreg) :
    (state.unassign vreg).vregToPhys.lookup other = state.vregToPhys.lookup other := by
  unfold AllocState.unassign
  cases state.vregToPhys.lookup vreg with
  | none => rfl
  | some phys => exact AList.lookup_erase_ne different

theorem unassign_lookup_self (state : AllocState) (vreg : ℕ) :
    (state.unassign vreg).vregToPhys.lookup vreg = none := by
  unfold AllocState.unassign
  cases bound : state.vregToPhys.lookup vreg with
  | none => exact bound
  | some phys => exact AList.lookup_erase _ _

@[simp] theorem unassign_spillSlots (state : AllocState) (vreg : ℕ) :
    (state.unassign vreg).spillSlots = state.spillSlots := by
  unfold AllocState.unassign
  cases state.vregToPhys.lookup vreg <;> rfl

theorem WellPlaced.unassign (placed : WellPlaced target function current) (vreg : ℕ) :
    WellPlaced target function (current.unassign vreg) := by
  refine ⟨placed.coherent.unassign vreg, ?_, ?_, ?_, placed.classes, placed.word, placed.objects⟩
  · intro other phys bound
    by_cases same : other = vreg
    · subst same
      simp [InstState.unassign, unassign_lookup_self] at bound
    · apply placed.ordered other phys
      exact (unassign_lookup_ne same).symm.trans bound
  · simpa [InstState.unassign] using placed.slotRange
  · simpa [InstState.unassign] using placed.slotsApart

include spillCode in
/-- Eviction moves one value from its register to its slot. -/
theorem Holding.evictPhys (holding : Holding target access function base values current)
    (phys : ℕ) : Holding target access function base values (current.evictPhys target phys) := by
  cases held : current.state.physToVreg.lookup phys with
  | none =>
    rw [InstState.evictPhys_free target held]
    exact holding
  | some vreg =>
    rw [InstState.evictPhys_held target held]
    have bound := (holding.coherent vreg phys).mpr held
    obtain ⟨placed, isSlot, others⟩ := holding.toWellPlaced.spillSlot
      (target.hooks.spillOpcode (current.function.vregClass vreg)) vreg phys
    refine ⟨WellPlaced.unassign placed vreg, ?_⟩
    intro other value isValue
    have before := holding.located other value isValue
    rw [unassign_contents, makeSpill_contents spillCode holding.toWellPlaced]
    by_cases same : other = vreg
    · subst same
      simp only [Located, bound] at before
      simp only [Located, InstState.unassign, unassign_lookup_self, unassign_spillSlots]
      refine ⟨_, isSlot, ?_⟩
      rw [update_self, lowBits_lowBits]
      exact before
    · have sameReg : (current.makeSpill target vreg phys).state.vregToPhys =
          current.state.vregToPhys := InstState.insertMem_vregToPhys _ _ _ _
      simp only [Located, InstState.unassign, unassign_lookup_ne same, unassign_spillSlots,
        sameReg] at before ⊢
      cases isBound : current.state.vregToPhys.lookup other with
      | some held =>
        rw [isBound] at before
        exact before
      | none =>
        rw [isBound] at before
        obtain ⟨slot, slotOther, agrees⟩ := before
        have kept := (others other same).trans slotOther
        refine ⟨slot, kept, ?_⟩
        have apart : slot ≠ (current.spillSlotFor vreg).1 := by
          rintro rfl
          exact same (placed.slotsApart other vreg _ kept isSlot)
        rw [update_of_ne apart]
        exact agrees

include spillCode in
theorem evictPhys_regs (placed : WellPlaced target function current) (phys : ℕ) :
    ((current.evictPhys target phys).contents access base).regs =
      (current.contents access base).regs := by
  cases held : current.state.physToVreg.lookup phys with
  | none => rw [InstState.evictPhys_free target held]
  | some vreg =>
    rw [InstState.evictPhys_held target held, unassign_contents,
      makeSpill_contents spillCode placed]

theorem evictPhys_pinned (phys : ℕ) :
    (current.evictPhys target phys).pinned = current.pinned := by
  cases held : current.state.physToVreg.lookup phys with
  | none => rw [InstState.evictPhys_free target held]
  | some vreg =>
    rw [InstState.evictPhys_held target held]
    simp only [InstState.unassign, InstState.makeSpill, InstState.insertMem, InstState.spillSlotFor]
    cases current.state.spillSlots.lookup vreg <;> rfl

variable {phys : ℕ}

theorem evictPhys_physToVreg_ne (coherent : current.state.Coherent) {other : ℕ}
    (different : other ≠ phys) :
    (current.evictPhys target phys).state.physToVreg.lookup other =
      current.state.physToVreg.lookup other := by
  cases held : current.state.physToVreg.lookup phys with
  | none => rw [InstState.evictPhys_free target held]
  | some vreg =>
    rw [InstState.evictPhys_held target held]
    have bound := (coherent vreg phys).mpr held
    have sameReg : (current.makeSpill target vreg phys).state.vregToPhys.lookup vreg =
        some phys := by
      rw [InstState.makeSpill, InstState.insertMem_vregToPhys]
      exact bound
    simp only [InstState.unassign, AllocState.unassign, sameReg, AList.lookup_erase_ne different]
    rw [InstState.makeSpill, InstState.insertMem_physToVreg]

theorem allocate_of_room (room : ∃ phys ∈ target.order (current.function.vregClass vreg),
      current.isPinned phys = false) :
    ∃ phys ∈ target.order (current.function.vregClass vreg), current.isPinned phys = false ∧
      current.allocate target vreg =
        (phys, (current.evictPhys target phys).take target vreg phys) := by
  unfold InstState.allocate
  cases search : (target.order (current.function.vregClass vreg)).find?
      (current.isFree target (current.function.vregClass vreg)) with
  | some phys =>
    have isFree := find?_some search
    simp only [InstState.isFree, Bool.and_eq_true, Bool.not_eq_true',
      isNone_iff_eq_none] at isFree
    refine ⟨phys, mem_of_find?_eq_some search, isFree.1.1, ?_⟩
    simp only [search]
    rw [InstState.evictPhys_free target isFree.2]
  | none =>
    cases unpinned : (target.order (current.function.vregClass vreg)).find?
        (fun phys => !current.isPinned phys) with
    | some phys =>
      have isUnpinned := find?_some unpinned
      refine ⟨phys, mem_of_find?_eq_some unpinned, by simpa using isUnpinned, ?_⟩
      simp only [search, unpinned]
    | none =>
      obtain ⟨phys, inOrder, isUnpinned⟩ := room
      have pinned := find?_eq_none.mp unpinned phys inOrder
      simp [isUnpinned] at pinned

@[simp] theorem take_contents (vreg phys : ℕ) :
    (current.take target vreg phys).contents access base = current.contents access base := rfl

theorem take_lookup_self (vreg phys : ℕ) :
    (current.take target vreg phys).state.vregToPhys.lookup vreg = some phys :=
  AList.lookup_insert _

theorem take_lookup_ne {other : ℕ} (different : other ≠ vreg) (phys : ℕ) :
    (current.take target vreg phys).state.vregToPhys.lookup other =
      current.state.vregToPhys.lookup other :=
  AList.lookup_insert_ne different

theorem noteUsedCsr_keeps (regs : TargetRegInfo) (phys : ℕ) (function : MFunction Op) :
    (noteUsedCsr regs phys function).vregClasses = function.vregClasses ∧
      (noteUsedCsr regs phys function).wordBytes = function.wordBytes ∧
      (noteUsedCsr regs phys function).frameObjects = function.frameObjects := by
  unfold noteUsedCsr
  split <;> exact ⟨rfl, rfl, rfl⟩

/-- A new binding; the value is not in the register yet. -/
theorem Holding.take (holding : Holding target access function base values current)
    (unbound : current.state.vregToPhys.lookup vreg = none)
    (free : current.state.physToVreg.lookup phys = none)
    (inOrder : phys ∈ target.order (function.vregClass vreg)) :
    Holding target access function base (update values vreg none)
      (current.take target vreg phys) := by
  obtain ⟨classes, word, objects⟩ := noteUsedCsr_keeps target.regs phys current.function
  refine ⟨⟨InstState.take_coherent target holding.coherent unbound free, ?_, ?_,
    holding.slotsApart, classes.trans holding.classes, word.trans holding.word, ?_⟩, ?_⟩
  · intro other otherPhys bound
    by_cases same : other = vreg
    · subst same
      rw [take_lookup_self] at bound
      exact Option.some.inj bound ▸ inOrder
    · rw [take_lookup_ne same] at bound
      exact holding.ordered other otherPhys bound
  · intro other slot isSlot
    have range := holding.slotRange other slot isSlot
    exact ⟨range.1, objects ▸ range.2⟩
  · exact objects ▸ holding.objects
  · intro other value isValue
    by_cases same : other = vreg
    · subst same
      simp at isValue
    · rw [update_of_ne same] at isValue
      have before := holding.located other value isValue
      rw [take_contents]
      simp only [Located, take_lookup_ne same] at before ⊢
      exact before

theorem insertMem_pinned (opcode : Op) (vreg phys : ℕ) :
    (current.insertMem opcode vreg phys).pinned = current.pinned := by
  simp only [InstState.insertMem, InstState.spillSlotFor]
  cases current.state.spillSlots.lookup vreg <;> rfl

/-- What a register search leaves behind. -/
structure Allocated (target : Target Op) (access : Op → Option Access) (function : MFunction Op)
    (base : Contents) (values : ℕ → Option (BitVec 128)) (current next : InstState Op)
    (vreg phys : ℕ) : Prop where
  holding : Holding target access function base (update values vreg none) next
  bound : next.state.vregToPhys.lookup vreg = some phys
  unpinned : phys ∉ current.pinned
  pinned : next.pinned = current.pinned ++ [phys]
  regs : (next.contents access base).regs = (current.contents access base).regs
  holds : ∀ other, other ≠ phys →
    next.state.physToVreg.lookup other = current.state.physToVreg.lookup other
  slot : ∀ value, values vreg = some value →
    ∃ slot, next.state.spillSlots.lookup vreg = some slot ∧
      lowBits (vregBits function vreg) ((next.contents access base).frame slot) =
        lowBits (vregBits function vreg) value

include spillCode in
theorem Holding.allocate (holding : Holding target access function base values current)
    (unbound : current.state.vregToPhys.lookup vreg = none)
    (room : ∃ phys ∈ target.order (function.vregClass vreg), phys ∉ current.pinned) :
    Allocated target access function base values current (current.allocate target vreg).2 vreg
      (current.allocate target vreg).1 := by
  have unpinned : ∃ phys ∈ target.order (current.function.vregClass vreg),
      current.isPinned phys = false := by
    rw [holding.toWellPlaced.vregClass]
    obtain ⟨phys, inOrder, unpinned⟩ := room
    exact ⟨phys, inOrder, by simpa [InstState.isPinned] using unpinned⟩
  obtain ⟨phys, inOrder, isUnpinned, result⟩ := allocate_of_room unpinned
  rw [holding.toWellPlaced.vregClass] at inOrder
  have evicted := holding.evictPhys spillCode phys
  have stillUnbound := InstState.evictPhys_keeps_unbound target unbound phys
  rw [result]
  constructor
  · exact evicted.take stillUnbound (InstState.evictPhys_frees target holding.coherent phys) inOrder
  · exact take_lookup_self vreg phys
  · simpa [InstState.isPinned] using isUnpinned
  · simp only [InstState.take, evictPhys_pinned]
  · rw [take_contents, evictPhys_regs spillCode holding.toWellPlaced]
  · intro other different
    have kept : (current.evictPhys target phys).state.physToVreg.lookup other = _ :=
      evictPhys_physToVreg_ne holding.coherent different
    simpa [InstState.take, AllocState.assign, AList.lookup_insert_ne different] using kept
  · intro value isValue
    have located := evicted.located vreg value isValue
    simp only [Located, stillUnbound] at located
    exact located

include spillCode in
theorem Holding.makeReload {value : BitVec 128}
    (holding : Holding target access function base (update values vreg none) current)
    (bound : current.state.vregToPhys.lookup vreg = some phys) (isValue : values vreg = some value)
    (slot : ∃ slot, current.state.spillSlots.lookup vreg = some slot ∧
      lowBits (vregBits function vreg) ((current.contents access base).frame slot) =
        lowBits (vregBits function vreg) value) :
    Holding target access function base values (current.makeReload target vreg phys) := by
  obtain ⟨slot, isSlot, agrees⟩ := slot
  have slotFor : (current.spillSlotFor vreg).1 = slot := by
    simp [InstState.spillSlotFor, isSlot]
  obtain ⟨placed, -, others⟩ := holding.toWellPlaced.spillSlot
    (target.hooks.reloadOpcode (current.function.vregClass vreg)) vreg phys
  refine ⟨placed, ?_⟩
  intro other otherValue isOther
  rw [makeReload_contents spillCode holding.toWellPlaced, slotFor]
  have sameReg : (current.makeReload target vreg phys).state.vregToPhys =
      current.state.vregToPhys := InstState.insertMem_vregToPhys _ _ _ _
  by_cases same : other = vreg
  · subst same
    obtain rfl : value = otherValue := Option.some.inj (isValue.symm.trans isOther)
    simp only [Located, sameReg, bound, update_self, lowBits_lowBits]
    exact agrees
  · have before := holding.located other otherValue (by
      rw [update_of_ne same]
      exact isOther)
    simp only [Located, sameReg] at before ⊢
    cases isBound : current.state.vregToPhys.lookup other with
    | some held =>
      have apart : held ≠ phys := by
        rintro rfl
        have left := (holding.coherent other held).mp isBound
        have right := (holding.coherent vreg held).mp bound
        exact same (Option.some.inj (left.symm.trans right))
      rw [isBound] at before
      simpa [update_of_ne apart] using before
    | none =>
      rw [isBound] at before
      obtain ⟨otherSlot, isOtherSlot, otherAgrees⟩ := before
      exact ⟨otherSlot, (others other same).trans isOtherSlot, otherAgrees⟩

theorem Holding.pin (holding : Holding target access function base values current) (phys : ℕ) :
    Holding target access function base values (current.pin phys) :=
  ⟨⟨holding.coherent, holding.ordered, holding.slotRange, holding.slotsApart, holding.classes,
    holding.word, holding.objects⟩, holding.located⟩

/-- While an instruction is processed the pinned registers of the orders hold
virtual registers that it names. -/
structure Pinning (target : Target Op) (named : List ℕ) (current : InstState Op) : Prop where
  held : ∀ phys ∈ current.pinned,
    phys ∈ target.regs.gprOrder ∨ phys ∈ target.regs.fprOrder →
    ∃ vreg ∈ named, current.state.physToVreg.lookup phys = some vreg

theorem mem_order_cases {cls : RegClass} (inOrder : phys ∈ target.order cls) :
    phys ∈ target.regs.gprOrder ∨ phys ∈ target.regs.fprOrder := by
  unfold Target.order at inOrder
  split at inOrder
  · exact .inl inOrder
  · exact .inr inOrder

theorem Target.Regular.sameOrder (regular : target.Regular) {left right : RegClass}
    (inLeft : phys ∈ target.order left) (inRight : phys ∈ target.order right) :
    left = .gpr ↔ right = .gpr := by
  unfold Target.order at inLeft inRight
  split at inLeft <;> split at inRight
  case isTrue.isTrue | isFalse.isFalse => simp_all
  case isTrue.isFalse => exact absurd inRight (regular.apart phys inLeft)
  case isFalse.isTrue => exact absurd inLeft (regular.apart phys inRight)

theorem Target.Regular.orderNodup (regular : target.Regular) (cls : RegClass) :
    (target.order cls).Nodup := by
  unfold Target.order
  split
  · exact regular.gprNodup
  · exact regular.fprNodup

/-- A virtual register that is not in a register yet finds one among registers of its
order: the others that the instruction names do not fill them. -/
theorem Pinning.room_among (regular : target.Regular) (placed : WellPlaced target function current)
    {inst : MInst Op} (pinning : Pinning target (virtualRegs inst.operands) current)
    (isNamed : vreg ∈ virtualRegs inst.operands)
    (unbound : current.state.vregToPhys.lookup vreg = none) {registers : List ℕ}
    (ordered : registers ⊆ target.order (function.vregClass vreg)) (nodup : registers.Nodup)
    (fits : (namedInOrder function (function.vregClass vreg) inst).card ≤ registers.length) :
    ∃ phys ∈ registers, phys ∉ current.pinned := by
  classical
  by_contra full
  push Not at full
  -- all of the registers hold other virtual registers of the instruction
  have holder : ∀ phys ∈ registers.toFinset,
      (current.state.physToVreg.lookup phys).getD 0 ∈
        (namedInOrder function (function.vregClass vreg) inst).erase vreg := by
    intro phys member
    have among := List.mem_toFinset.mp member
    obtain ⟨other, otherNamed, held⟩ :=
      pinning.held phys (full phys among) (mem_order_cases (ordered among))
    have bound := (placed.coherent other phys).mpr held
    have sameOrder := regular.sameOrder (placed.ordered other phys bound) (ordered among)
    rw [held, getD_some]
    refine Finset.mem_erase.mpr ⟨?_, Finset.mem_filter.mpr ⟨List.mem_toFinset.mpr otherNamed, sameOrder⟩⟩
    rintro rfl
    rw [unbound] at bound
    cases bound
  have injective : Set.InjOn (fun phys => (current.state.physToVreg.lookup phys).getD 0)
      registers.toFinset := by
    intro left inLeft right inRight same
    have leftAmong := List.mem_toFinset.mp inLeft
    have rightAmong := List.mem_toFinset.mp inRight
    obtain ⟨leftVreg, -, leftHeld⟩ :=
      pinning.held left (full left leftAmong) (mem_order_cases (ordered leftAmong))
    obtain ⟨rightVreg, -, rightHeld⟩ :=
      pinning.held right (full right rightAmong) (mem_order_cases (ordered rightAmong))
    simp only [leftHeld, rightHeld, getD_some] at same
    subst same
    have leftBound := (placed.coherent leftVreg left).mpr leftHeld
    have rightBound := (placed.coherent leftVreg right).mpr rightHeld
    exact Option.some.inj (leftBound.symm.trans rightBound)
  have counted := Finset.card_le_card_of_injOn _ holder injective
  rw [toFinset_card_of_nodup nodup] at counted
  have self : vreg ∈ namedInOrder function (function.vregClass vreg) inst :=
    Finset.mem_filter.mpr ⟨List.mem_toFinset.mpr isNamed, Iff.rfl⟩
  have fewer := Finset.card_erase_lt_of_mem self
  omega

theorem Pinning.room (regular : target.Regular) (placed : WellPlaced target function current)
    {inst : MInst Op} (pinning : Pinning target (virtualRegs inst.operands) current)
    (isNamed : vreg ∈ virtualRegs inst.operands)
    (unbound : current.state.vregToPhys.lookup vreg = none)
    (fits : (namedInOrder function (function.vregClass vreg) inst).card ≤
      (target.order (function.vregClass vreg)).length) :
    ∃ phys ∈ target.order (function.vregClass vreg), phys ∉ current.pinned :=
  pinning.room_among regular placed isNamed unbound (List.Subset.refl _) (regular.orderNodup _) fits

/-- Pinned registers stay pinned and keep what they hold. -/
structure Keeps (access : Op → Option Access) (base : Contents) (current next : InstState Op) :
    Prop where
  pinned : ∀ phys ∈ current.pinned, phys ∈ next.pinned
  regs : ∀ phys ∈ current.pinned,
    (next.contents access base).regs phys = (current.contents access base).regs phys
  holds : ∀ phys ∈ current.pinned,
    next.state.physToVreg.lookup phys = current.state.physToVreg.lookup phys

theorem Keeps.refl : Keeps access base current current :=
  ⟨fun _ member => member, fun _ _ => rfl, fun _ _ => rfl⟩

theorem Keeps.trans {next last : InstState Op} (first : Keeps access base current next)
    (second : Keeps access base next last) : Keeps access base current last := by
  constructor
  · intro phys member
    exact second.pinned phys (first.pinned phys member)
  · intro phys member
    rw [second.regs phys (first.pinned phys member), first.regs phys member]
  · intro phys member
    rw [second.holds phys (first.pinned phys member), first.holds phys member]

/-- A rewritten operand is a pinned register that holds the virtual register
and has its value. -/
def Observes (access : Op → Option Access) (function : MFunction Op) (base : Contents)
    (values : ℕ → Option (BitVec 128)) (current : InstState Op) (vreg : ℕ)
    (rewritten : MOperand) : Prop :=
  ∃ phys value, rewritten = .reg (.phys phys) ∧ phys ∈ current.pinned ∧
    current.state.physToVreg.lookup phys = some vreg ∧ values vreg = some value ∧
    lowBits (vregBits function vreg) ((current.contents access base).regs phys) =
      lowBits (vregBits function vreg) value

theorem Observes.keeps {next : InstState Op} {rewritten : MOperand}
    (observes : Observes access function base values current vreg rewritten)
    (keeps : Keeps access base current next) :
    Observes access function base values next vreg rewritten := by
  obtain ⟨phys, value, isPhys, pinned, held, isValue, agrees⟩ := observes
  refine ⟨phys, value, isPhys, keeps.pinned phys pinned, ?_, isValue, ?_⟩
  · exact (keeps.holds phys pinned).trans held
  rw [keeps.regs phys pinned]
  exact agrees

section Reads

variable {inst : MInst Op} (regular : target.Regular)
  (fits : ∀ cls, (namedInOrder function cls inst).card ≤ (target.order cls).length)
  {info : RegAllocOpcodeInfo} {index : ℕ} {operand : MOperand}

/-- What one read does. -/
structure ReadStep (target : Target Op) (access : Op → Option Access) (function : MFunction Op)
    (base : Contents) (values : ℕ → Option (BitVec 128)) (named : List ℕ)
    (current next : InstState Op) : Prop where
  holding : Holding target access function base values next
  pinning : Pinning target named next
  keeps : Keeps access base current next

include regular fits spillCode in
theorem readOperand_step (holding : Holding target access function base values current)
    (pinning : Pinning target (virtualRegs inst.operands) current)
    (isOperand : operand ∈ inst.operands)
    (defined : ∀ vreg, operand = .reg (.vreg vreg) → isWriteOnlyDef info index = false →
      (values vreg).isSome = true) :
    ReadStep target access function base values (virtualRegs inst.operands) current
        (readOperand target info index operand current).2 ∧
      ∀ vreg, operand = .reg (.vreg vreg) → isWriteOnlyDef info index = false →
        Observes access function base values (readOperand target info index operand current).2
          vreg (readOperand target info index operand current).1 := by
  have named : ∀ vreg, operand = .reg (.vreg vreg) → vreg ∈ virtualRegs inst.operands := by
    intro vreg isVreg
    exact mem_filterMap.mpr ⟨operand, isOperand, by rw [isVreg]⟩
  have stays : ReadStep target access function base values (virtualRegs inst.operands) current
      current :=
    ⟨holding, pinning, .refl⟩
  rcases readOperand_cases target info index operand current with
    same | ⟨vreg, phys, isVreg, bound, result⟩ | ⟨vreg, isVreg, notWriteOnly, unbound⟩
  · rw [same]
    refine ⟨stays, ?_⟩
    -- a read operand never stays virtual
    rintro vreg rfl notWriteOnly
    have changed := congrArg Prod.fst same
    cases bound : current.state.vregToPhys.lookup vreg with
    | some phys | none => simp [readOperand, notWriteOnly, bound] at changed
  · rw [result]
    have held := (holding.coherent vreg phys).mp bound
    refine ⟨⟨holding.pin phys, ⟨?_⟩, ⟨?_, fun _ _ => rfl, fun _ _ => rfl⟩⟩, ?_⟩
    · intro other member inOrder
      rcases mem_append.mp member with old | new
      · exact pinning.held other old inOrder
      · rw [mem_singleton.mp new]
        exact ⟨vreg, named vreg isVreg, held⟩
    · exact fun other member => mem_append_left _ member
    · rintro other isOther notWriteOnly
      obtain rfl : vreg = other := by simpa [isVreg] using isOther
      obtain ⟨value, isValue⟩ := Option.isSome_iff_exists.mp (defined vreg isVreg notWriteOnly)
      have located := holding.located vreg value isValue
      simp only [Located, bound] at located
      exact ⟨phys, value, rfl, mem_append_right _ (.head _), held, isValue, located⟩
  · subst isVreg
    obtain ⟨value, isValue⟩ := Option.isSome_iff_exists.mp (defined vreg rfl notWriteOnly)
    have allocated := holding.allocate spillCode unbound
      (pinning.room regular holding.toWellPlaced (named vreg rfl) unbound (fits _))
    rw [readOperand_reload target info notWriteOnly unbound, ← InstState.allocate_fst]
    have reloaded := allocated.holding.makeReload spillCode allocated.bound isValue
      (allocated.slot value isValue)
    have bound : ((current.allocate target vreg).2.makeReload target vreg
        (current.allocate target vreg).1).state.vregToPhys.lookup vreg =
          some (current.allocate target vreg).1 := by
      rw [InstState.makeReload, InstState.insertMem_vregToPhys]
      exact allocated.bound
    have pinned : ((current.allocate target vreg).2.makeReload target vreg
        (current.allocate target vreg).1).pinned =
          current.pinned ++ [(current.allocate target vreg).1] := by
      rw [InstState.makeReload, insertMem_pinned]
      exact allocated.pinned
    have apart : ∀ other ∈ current.pinned, other ≠ (current.allocate target vreg).1 := by
      rintro other member rfl
      exact allocated.unpinned member
    refine ⟨⟨reloaded, ⟨?_⟩, ⟨?_, ?_, ?_⟩⟩, ?_⟩
    · intro other member inOrder
      rw [pinned] at member
      rw [InstState.makeReload, InstState.insertMem_physToVreg]
      by_cases same : other = (current.allocate target vreg).1
      · rw [same]
        exact ⟨vreg, named vreg rfl, (allocated.holding.coherent vreg _).mp allocated.bound⟩
      · rw [allocated.holds other same]
        rcases mem_append.mp member with old | new
        · exact pinning.held other old inOrder
        · exact absurd (mem_singleton.mp new) same
    · intro other member
      rw [pinned]
      exact mem_append_left _ member
    · intro other member
      rw [makeReload_contents spillCode allocated.holding.toWellPlaced, ← allocated.regs]
      exact update_of_ne (apart other member) _ _
    · intro other member
      rw [InstState.makeReload, InstState.insertMem_physToVreg]
      exact allocated.holds other (apart other member)
    · rintro other isOther -
      cases isOther
      have located := reloaded.located vreg value isValue
      simp only [Located, bound] at located
      refine ⟨_, value, rfl, ?_, (reloaded.coherent vreg _).mp bound, isValue, located⟩
      rw [pinned]
      exact mem_append_right _ (.head _)

include regular fits spillCode in
theorem readOperands_step {operands : List MOperand} :
    ∀ (index : ℕ) {current : InstState Op}, operands ⊆ inst.operands →
      Holding target access function base values current →
      Pinning target (virtualRegs inst.operands) current →
      (∀ offset vreg, operands[offset]? = some (.reg (.vreg vreg)) →
        isWriteOnlyDef info (index + offset) = false → (values vreg).isSome = true) →
      ReadStep target access function base values (virtualRegs inst.operands) current
          (readOperands target info index operands current).2 ∧
        ∀ offset vreg, operands[offset]? = some (.reg (.vreg vreg)) →
          isWriteOnlyDef info (index + offset) = false →
          ∃ rewritten, (readOperands target info index operands current).1[offset]? =
              some rewritten ∧
            Observes access function base values
              (readOperands target info index operands current).2 vreg rewritten := by
  induction operands with
  | nil =>
    intro index current subset holding pinning defined
    refine ⟨⟨holding, pinning, .refl⟩, ?_⟩
    intro offset vreg found
    simp at found
  | cons operand operands ih =>
    intro index current subset holding pinning defined
    obtain ⟨step, observes⟩ := readOperand_step spillCode regular fits holding pinning
      (subset (.head _)) fun vreg isVreg reads => defined 0 vreg (by simp [isVreg]) reads
    obtain ⟨steps, others⟩ := ih (index + 1)
      (fun _ member => subset (.tail _ member)) step.holding step.pinning
      fun offset vreg found reads => defined (offset + 1) vreg found
        (by rwa [Nat.add_comm offset, ← Nat.add_assoc])
    refine ⟨⟨steps.holding, steps.pinning, step.keeps.trans steps.keeps⟩, ?_⟩
    intro offset vreg found reads
    cases offset with
    | zero =>
      have isVreg : operand = .reg (.vreg vreg) := by simpa using found
      exact ⟨_, rfl, (observes vreg isVreg reads).keeps steps.keeps⟩
    | succ offset =>
      exact others offset vreg found (by rwa [Nat.add_assoc, Nat.add_comm 1])

end Reads

end Steps

end Aburi.Backend.FastRegAllocator
