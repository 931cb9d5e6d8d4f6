import Aburi.Backend.FastValueSteps

/-!
# Values across one instruction

The walk over an instruction puts the values it reads into registers and keeps
all others in place.  A call gives up the registers it overwrites before it is
made; of the registers it saves, only the low half is saved.
-/

namespace Aburi.Backend.FastRegAllocator

open Function BitVec List Bool

variable {Op : Type}

section Calls

variable {target : Target Op} {access : Op → Option Access} {function : MFunction Op}
  {base : Contents} {values : ℕ → Option (BitVec 128)}
  (spillCode : SpillCode target access function)

include spillCode in
theorem evictAll_step (clobbered : List ℕ) :
    ∀ {current : InstState Op}, Holding target access function base values current →
      let next := clobbered.foldl (fun current phys => current.evictPhys target phys) current
      Holding target access function base values next ∧
        (next.contents access base).regs = (current.contents access base).regs ∧
        (∀ phys ∈ clobbered, next.state.physToVreg.lookup phys = none) ∧
        (∀ phys, phys ∉ clobbered →
          next.state.physToVreg.lookup phys = current.state.physToVreg.lookup phys) ∧
        ∀ phys, current.state.physToVreg.lookup phys = none →
          next.state.physToVreg.lookup phys = none := by
  induction clobbered with
  | nil =>
    intro current holding
    exact ⟨holding, rfl, by simp, fun _ _ => rfl, fun _ free => free⟩
  | cons first rest ih =>
    intro current holding
    obtain ⟨final, regs, freed, kept, free⟩ := ih (holding.evictPhys spillCode first)
    have firstFree := InstState.evictPhys_frees target holding.coherent first
    refine ⟨final, ?_, ?_, ?_, ?_⟩
    · rw [evictPhys_regs spillCode holding.toWellPlaced] at regs
      exact regs
    · intro phys member
      rcases List.mem_cons.mp member with rfl | later
      · exact free phys firstFree
      · exact freed phys later
    · intro phys notMember
      obtain ⟨notFirst, notRest⟩ := ne_and_not_mem_of_not_mem_cons notMember
      rw [foldl_cons, kept phys notRest]
      exact evictPhys_physToVreg_ne holding.coherent notFirst
    · intro phys isFree
      exact free phys (InstState.evictPhys_keeps_free target isFree first)

include spillCode in
/-- Before a call exactly the registers it overwrites are given up. -/
theorem clobberForCall_step (regular : target.Regular) {current : InstState Op}
    (holding : Holding target access function base values current) :
    Holding target access function base values (clobberForCall target current) ∧
      ((clobberForCall target current).contents access base).regs =
        (current.contents access base).regs ∧
      ∀ vreg phys, (clobberForCall target current).state.vregToPhys.lookup vreg = some phys ↔
        current.state.vregToPhys.lookup vreg = some phys ∧
          target.regs.isCalleeSaved phys = true := by
  unfold clobberForCall
  obtain ⟨final, regs, freed, kept, free⟩ := evictAll_step spillCode
    ((target.visitOrder current.state.physToVreg.keys).filter
      (fun phys => !target.regs.isCalleeSaved phys)) holding
  refine ⟨final, regs, ?_⟩
  intro vreg phys
  rw [final.coherent vreg phys, holding.coherent vreg phys]
  by_cases saved : target.regs.isCalleeSaved phys = true
  · have notClobbered : phys ∉ (target.visitOrder current.state.physToVreg.keys).filter
        (fun phys => !target.regs.isCalleeSaved phys) := by
      simp [saved]
    rw [kept phys notClobbered]
    simp [saved]
  · constructor
    · intro held
      exfalso
      cases before : current.state.physToVreg.lookup phys with
      | none =>
        rw [free phys before] at held
        cases held
      | some other =>
        have isKey : phys ∈ current.state.physToVreg.keys :=
          AList.lookup_isSome.mp (by rw [before]; rfl)
        have clobbered : phys ∈ (target.visitOrder current.state.physToVreg.keys).filter
            (fun phys => !target.regs.isCalleeSaved phys) :=
          List.mem_filter.mpr ⟨regular.visits _ phys isKey, by simpa using saved⟩
        rw [freed phys clobbered] at held
        cases held
    · rintro ⟨-, isSaved⟩
      exact absurd isSaved saved

end Calls

variable {vreg : ℕ}

section Definitions

variable {target : Target Op} {access : Op → Option Access} {function : MFunction Op}
  {base : Contents} {values : ℕ → Option (BitVec 128)} {current : InstState Op}

/-- The value of a virtual register after an instruction, `placed` being the
state when its operands are in registers. -/
def valueAfter (target : Target Op) (outcome : Outcome) (k : ℕ) (inst : MInst Op)
    (placed : AllocState) (vreg : ℕ) (old : Option (BitVec 128)) : Option (BitVec 128) :=
  if definesVreg target vreg inst then some (outcome.written k)
  else if (target.opcodeInfo inst.opcode).isCall then
    match placed.vregToPhys.lookup vreg with
    | some phys =>
      if target.regs.isCalleeSaved phys then
        old.map (withHigh · ((outcome.left k).regs phys))
      else old
    | none => old
  else old

theorem toNat_withHigh (kept lost : BitVec 128) :
    (withHigh kept lost).toNat = 2 ^ 64 * (lost.toNat / 2 ^ 64) + kept.toNat % 2 ^ 64 := by
  have low : (lowBits 64 kept).toNat = kept.toNat % 2 ^ 64 := by
    simp only [lowBits, toNat_setWidth]
    exact Nat.mod_eq_of_lt ((Nat.mod_lt _ (by decide)).trans (by decide))
  have high : ((lost >>> 64) <<< 64).toNat = 2 ^ 64 * (lost.toNat / 2 ^ 64) := by
    rw [toNat_shiftLeft, toNat_ushiftRight, Nat.shiftLeft_eq,
      Nat.shiftRight_eq_div_pow, Nat.mul_comm]
    have := lost.isLt
    omega
  have lowBound : (lowBits 64 kept).toNat < 2 ^ 64 := low ▸ Nat.mod_lt _ (by decide)
  rw [withHigh, toNat_or, high, ← Nat.two_pow_add_eq_or_of_lt lowBound, low]

theorem SpillCode.vregBits_cases (spillCode : SpillCode target access function) (vreg : ℕ) :
    function.vregClass vreg ≠ .fpr128 ∧ vregBits function vreg ≤ 64 ∨
      function.vregClass vreg = .fpr128 ∧ vregBits function vreg = 128 := by
  have word := spillCode.word
  unfold vregBits
  cases function.vregClass vreg with
  | gpr =>
    left
    simp only [spillBytes]
    exact ⟨by simp, by omega⟩
  | fpr => exact .inl ⟨by simp, by simp [spillBytes]⟩
  | fpr128 => exact .inr ⟨rfl, rfl⟩

theorem lowBits_withHigh {bits : ℕ} (half : bits ≤ 64) (kept lost : BitVec 128) :
    lowBits bits (withHigh kept lost) = lowBits bits kept := by
  apply eq_of_toNat_eq
  simp only [lowBits, toNat_setWidth, toNat_withHigh]
  have divides : 2 ^ bits ∣ 2 ^ 64 := Nat.pow_dvd_pow 2 half
  rw [Nat.add_mod, Nat.mod_eq_zero_of_dvd (divides.mul_right _), Nat.zero_add, Nat.mod_mod,
    Nat.mod_mod_of_dvd _ divides]

theorem lowBits_all (value : BitVec 128) : lowBits 128 value = value := by
  simp [lowBits]

theorem SpillCode.withHigh_congr (spillCode : SpillCode target access function)
    {left right : BitVec 128} (lost : BitVec 128)
    (same : lowBits (vregBits function vreg) left = lowBits (vregBits function vreg) right) :
    lowBits (vregBits function vreg) (withHigh left lost) =
      lowBits (vregBits function vreg) (withHigh right lost) := by
  rcases spillCode.vregBits_cases vreg with ⟨-, half⟩ | ⟨-, full⟩
  · rw [lowBits_withHigh half, lowBits_withHigh half]
    exact same
  · rw [full, lowBits_all, lowBits_all] at same
    rw [same]

/-- The walk in front of an instruction: nothing inserted, nothing pinned. -/
def BlockState.walk (function : MFunction Op) (state : AllocState) : InstState Op :=
  { function := function, state := state }

/-- From the contents one instruction leaves the next one starts. -/
theorem Holding.restart {values' : ℕ → Option (BitVec 128)} {base' : Contents}
    (holding : Holding target access function base values current)
    (regs : ∀ vreg phys value, values' vreg = some value →
      current.state.vregToPhys.lookup vreg = some phys →
      lowBits (vregBits function vreg) (base'.regs phys) = lowBits (vregBits function vreg) value)
    (frame : ∀ slot, function.frameObjects.length ≤ slot →
      base'.frame slot = (current.contents access base).frame slot)
    (slots : ∀ vreg value, values' vreg = some value →
      current.state.vregToPhys.lookup vreg = none → values vreg = some value) :
    Holding target access function base' values'
      (BlockState.walk current.function current.state) := by
  refine ⟨⟨holding.coherent, holding.ordered, holding.slotRange, holding.slotsApart,
    holding.classes, holding.word, holding.objects⟩, ?_⟩
  intro vreg value isValue
  cases bound : current.state.vregToPhys.lookup vreg with
  | some phys =>
    simp only [Located, BlockState.walk, bound]
    exact regs vreg phys value isValue bound
  | none =>
    have located := holding.located vreg value (slots vreg value isValue bound)
    simp only [Located, bound] at located
    simp only [Located, BlockState.walk, bound]
    obtain ⟨slot, isSlot, agrees⟩ := located
    refine ⟨slot, isSlot, ?_⟩
    have same := frame slot (holding.slotRange vreg slot isSlot).1
    exact (congrArg (lowBits _) same).trans agrees

section Sources

variable {outcome : Outcome} {k : ℕ} {rewritten : MInst Op}

section

variable {kept lost : ℕ → BitVec 128} {phys : ℕ} {cls : RegClass}
  (inOrder : phys ∈ target.order cls)
include inOrder

/-- Registers of the orders that an ordinary instruction leaves alone. -/
theorem leftInReg_kept : leftInReg target false kept lost phys = kept phys := by
  simp [leftInReg, mem_order_cases inOrder]

theorem leftInReg_call (saved : target.regs.isCalleeSaved phys = true) :
    leftInReg target true kept lost phys = withHigh (kept phys) (lost phys) := by
  simp [leftInReg, mem_order_cases inOrder, saved]

end

theorem runSource_regs (target : Target Op) (objects : ℕ) (outcome : Outcome) (k : ℕ)
    (rewritten : MInst Op) (contents : Contents) :
    let left := leftInReg target (target.opcodeInfo rewritten.opcode).isCall contents.regs
      (outcome.left k).regs
    (runSource target objects outcome k rewritten contents).regs = left ∨
      ∃ phys, (target.opcodeInfo rewritten.opcode).definesOperand0 = true ∧
        rewritten.operands.head? = some (.reg (.phys phys)) ∧
        (runSource target objects outcome k rewritten contents).regs =
          update left phys (outcome.written k) := by
  simp only [runSource]
  split
  case h_1 phys rest defines operands => exact .inr ⟨phys, defines, by simp [operands], rfl⟩
  case h_2 => exact .inl rfl

theorem runSource_frame (contents : Contents) {slot : ℕ}
    (isSlot : function.frameObjects.length ≤ slot) :
    (runSource target function.frameObjects.length outcome k rewritten contents).frame slot =
      contents.frame slot := by
  simp [runSource, Nat.not_lt.mpr isSlot]

theorem Holding.source (holding : Holding target access function base values current)
    (notCall : (target.opcodeInfo rewritten.opcode).isCall = false)
    (outside : (target.opcodeInfo rewritten.opcode).definesOperand0 = true →
      ∀ phys, rewritten.operands.head? = some (.reg (.phys phys)) →
        phys ∉ target.regs.gprOrder ∧ phys ∉ target.regs.fprOrder) :
    Holding target access function
      (runSource target function.frameObjects.length outcome k rewritten
        (current.contents access base))
      values (BlockState.walk current.function current.state) := by
  refine holding.restart ?_ (fun slot isSlot => runSource_frame _ isSlot)
    (fun _ _ isValue _ => isValue)
  intro vreg phys value isValue bound
  have inOrder := holding.ordered vreg phys bound
  have located := holding.located vreg value isValue
  simp only [Located, bound] at located
  have kept : (runSource target function.frameObjects.length outcome k rewritten
      (current.contents access base)).regs phys = (current.contents access base).regs phys := by
    rcases runSource_regs target function.frameObjects.length outcome k rewritten
        (current.contents access base) with
      same | ⟨written, defines, head, changed⟩
    · rw [same, notCall, leftInReg_kept inOrder]
    · have apart : phys ≠ written := by
        rintro rfl
        have isOutside := outside defines phys head
        exact absurd (mem_order_cases inOrder) (by simp [isOutside])
      rw [changed, update_of_ne apart, notCall, leftInReg_kept inOrder]
  rw [kept]
  exact located

theorem Holding.sourceDef {phys : ℕ} {rest : List MOperand}
    (holding : Holding target access function base (update values vreg none) current)
    (bound : current.state.vregToPhys.lookup vreg = some phys)
    (notCall : (target.opcodeInfo rewritten.opcode).isCall = false)
    (defines : (target.opcodeInfo rewritten.opcode).definesOperand0 = true)
    (operands : rewritten.operands = .reg (.phys phys) :: rest) :
    Holding target access function
      (runSource target function.frameObjects.length outcome k rewritten
        (current.contents access base))
      (update values vreg (some (outcome.written k)))
      (BlockState.walk current.function current.state) := by
  have regs : (runSource target function.frameObjects.length outcome k rewritten
      (current.contents access base)).regs =
        update (leftInReg target false (current.contents access base).regs
          (outcome.left k).regs) phys (outcome.written k) := by
    simp only [runSource, notCall, defines, operands]
  refine holding.restart ?_ (fun slot isSlot => runSource_frame _ isSlot) ?_
  · intro other otherPhys value isValue otherBound
    rw [regs]
    by_cases same : other = vreg
    · subst same
      obtain rfl : phys = otherPhys := Option.some.inj (bound.symm.trans otherBound)
      obtain rfl : outcome.written k = value := by simpa using isValue
      rw [update_self]
    · have apart : otherPhys ≠ phys := by
        rintro rfl
        have left := (holding.coherent other otherPhys).mp otherBound
        have right := (holding.coherent vreg otherPhys).mp bound
        exact same (Option.some.inj (left.symm.trans right))
      rw [update_of_ne same] at isValue
      have located := holding.located other value (by
        rw [update_of_ne same]
        exact isValue)
      simp only [Located, otherBound] at located
      rw [update_of_ne apart, leftInReg_kept (holding.ordered other otherPhys otherBound)]
      exact located
  · intro other value isValue unbound
    have different : other ≠ vreg := by
      rintro rfl
      rw [bound] at unbound
      cases unbound
    rw [update_of_ne different] at isValue ⊢
    exact isValue

/-- A call, after the registers it overwrites were given up. -/
theorem Holding.sourceCall (spillCode : SpillCode target access function)
    (regular : target.Regular) (holding : Holding target access function base values current)
    {inst : MInst Op} (sameOpcode : rewritten.opcode = inst.opcode)
    (isCall : (target.opcodeInfo inst.opcode).isCall = true) :
    Holding target access function
      (runSource target function.frameObjects.length outcome k rewritten
        ((clobberForCall target current).contents access base))
      (fun vreg => valueAfter target outcome k inst current.state vreg (values vreg))
      (BlockState.walk (clobberForCall target current).function
        (clobberForCall target current).state) := by
  obtain ⟨clobbered, -, bindings⟩ := clobberForCall_step spillCode regular holding
  have noDef := regular.calls _ isCall
  have regs : (runSource target function.frameObjects.length outcome k rewritten
      ((clobberForCall target current).contents access base)).regs =
        leftInReg target true ((clobberForCall target current).contents access base).regs
          (outcome.left k).regs := by
    rcases runSource_regs target function.frameObjects.length outcome k rewritten
        ((clobberForCall target current).contents access base) with same | ⟨phys, defines, -, -⟩
    · rw [same, sameOpcode, isCall]
    · rw [sameOpcode, noDef] at defines
      cases defines
  have after : ∀ vreg, valueAfter target outcome k inst current.state vreg (values vreg) =
      match current.state.vregToPhys.lookup vreg with
      | some phys =>
        if target.regs.isCalleeSaved phys then
          (values vreg).map (withHigh · ((outcome.left k).regs phys))
        else values vreg
      | none => values vreg := by
    intro vreg
    simp [valueAfter, definesVreg, noDef, isCall]
  refine clobbered.restart ?_ (fun slot isSlot => runSource_frame _ isSlot) ?_
  · intro vreg phys value isValue bound
    obtain ⟨wasBound, saved⟩ := (bindings vreg phys).mp bound
    simp only [after, wasBound, saved, if_true] at isValue
    obtain ⟨old, isOld, rfl⟩ := Option.map_eq_some_iff.mp isValue
    have located := clobbered.located vreg old isOld
    simp only [Located, bound] at located
    rw [regs, leftInReg_call (clobbered.ordered vreg phys bound) saved]
    exact spillCode.withHigh_congr _ located
  · intro vreg value isValue unbound
    simp only [after] at isValue
    cases wasBound : current.state.vregToPhys.lookup vreg with
    | none => simpa [wasBound] using isValue
    | some phys =>
      have notSaved : target.regs.isCalleeSaved phys = false := by
        by_contra saved
        have bound := (bindings vreg phys).mpr ⟨wasBound, by simpa using saved⟩
        rw [unbound] at bound
        cases bound
      simpa [wasBound, notSaved] using isValue

end Sources

end Definitions

section Instructions

variable {target : Target Op} {access : Op → Option Access} {function : MFunction Op}
  {base : Contents} {values : ℕ → Option (BitVec 128)}

/-- What the walk over one instruction achieves: its operands are the values of
its virtual registers, and what it leaves is in place for the next one. -/
structure InstStep (target : Target Op) (access : Op → Option Access) (function : MFunction Op)
    (base : Contents) (values : ℕ → Option (BitVec 128)) (outcome : Outcome) (k : ℕ)
    (inst : MInst Op) (placed : AllocState) (result : MInst Op × InstState Op) : Prop where
  reads : ∀ index vreg, ReadsVreg target inst index vreg →
    ∃ phys value, result.1.operands[index]? = some (.reg (.phys phys)) ∧
      values vreg = some value ∧
      lowBits (vregBits function vreg) ((runInserted access result.2.inserted base).regs phys) =
        lowBits (vregBits function vreg) value
  leaves : Holding target access function
    (runSource target function.frameObjects.length outcome k result.1
      (runInserted access result.2.inserted base))
    (fun vreg => valueAfter target outcome k inst placed vreg (values vreg))
    (BlockState.walk result.2.function result.2.state)

section

variable {outcome : Outcome} {k : ℕ} {inst : MInst Op} {placed : AllocState}
  (notCall : (target.opcodeInfo inst.opcode).isCall = false)
include notCall

theorem valueAfter_kept (noDef : ∀ vreg, definesVreg target vreg inst = false) :
    (fun vreg => valueAfter target outcome k inst placed vreg (values vreg)) = values := by
  funext vreg
  simp [valueAfter, notCall, noDef]

theorem valueAfter_def (defines : (target.opcodeInfo inst.opcode).definesOperand0 = true)
    (head : inst.operands.head? = some (.reg (.vreg vreg))) :
    (fun other => valueAfter target outcome k inst placed other (values other)) =
      update values vreg (some (outcome.written k)) := by
  funext other
  by_cases same : other = vreg
  · subst same
    simp [valueAfter, definesVreg, defines, head]
  · have notDef : definesVreg target other inst = false := by
      simp [definesVreg, head, Ne.symm same]
    simp [valueAfter, notDef, notCall, update_of_ne same]

end

theorem Holding.forget {current : InstState Op}
    (holding : Holding target access function base values current) (vreg : ℕ) :
    Holding target access function base (update values vreg none) current := by
  refine ⟨holding.toWellPlaced, ?_⟩
  intro other value isValue
  apply holding.located other value
  by_cases same : other = vreg
  · subst same
    simp at isValue
  · rwa [update_of_ne same] at isValue

section Cases

variable {current : InstState Op} {inst : MInst Op} {operands : List MOperand}
  {outcome : Outcome} {k : ℕ} {placed : AllocState}
  (holding : Holding target access function base values current)
  (observed : ∀ index vreg : ℕ, ReadsVreg target inst index vreg →
    ∃ rewritten, operands[index]? = some rewritten ∧
      Observes access function base values current vreg rewritten)
  (notCall : (target.opcodeInfo inst.opcode).isCall = false)

include observed in
theorem reads_of_observed {next : InstState Op} {rewritten : List MOperand}
    (regs : (next.contents access base).regs = (current.contents access base).regs)
    (same : ∀ index phys : ℕ, operands[index]? = some (.reg (.phys phys)) →
      rewritten[index]? = some (.reg (.phys phys))) :
    ∀ index vreg, ReadsVreg target inst index vreg →
      ∃ phys value, rewritten[index]? = some (.reg (.phys phys)) ∧
        values vreg = some value ∧
        lowBits (vregBits function vreg) ((next.contents access base).regs phys) =
          lowBits (vregBits function vreg) value := by
  intro index vreg reads
  obtain ⟨operand, found, phys, value, rfl, -, -, isValue, agrees⟩ := observed index vreg reads
  exact ⟨phys, value, same index phys found, isValue, by rw [regs]; exact agrees⟩

include holding observed notCall in
theorem instStep_plain (noDef : ∀ vreg, definesVreg target vreg inst = false)
    (outside : (target.opcodeInfo inst.opcode).definesOperand0 = true →
      ∀ phys, operands.head? = some (.reg (.phys phys)) →
        phys ∉ target.regs.gprOrder ∧ phys ∉ target.regs.fprOrder) :
    InstStep target access function base values outcome k inst placed
      ({ inst with operands := operands }, current) := by
  constructor
  · exact reads_of_observed observed rfl fun _ _ found => found
  · rw [valueAfter_kept notCall noDef]
    exact holding.source notCall outside

include holding observed notCall in
/-- A virtual register that is read and written stays where it was read. -/
theorem instStep_readDef (defines : (target.opcodeInfo inst.opcode).definesOperand0 = true)
    (head : inst.operands.head? = some (.reg (.vreg vreg))) (reads : ReadsVreg target inst 0 vreg) :
    InstStep target access function base values outcome k inst placed
      ({ inst with operands := operands }, current) := by
  constructor
  · exact reads_of_observed observed rfl fun _ _ found => found
  · obtain ⟨operand, found, phys, value, rfl, -, held, -, -⟩ := observed 0 vreg reads
    obtain ⟨rest, shape⟩ : ∃ rest, operands = .reg (.phys phys) :: rest := by
      cases operands with
      | nil => simp at found
      | cons first rest => exact ⟨rest, by simpa using found⟩
    rw [valueAfter_def notCall defines head]
    exact (holding.forget vreg).sourceDef ((holding.coherent vreg phys).mpr held) notCall defines
      shape

include holding observed notCall in
/-- A virtual register that is only written gets a register now, unless it has
one. -/
theorem instStep_writeDef (spillCode : SpillCode target access function) (regular : target.Regular)
    (fits : ∀ cls, (namedInOrder function cls inst).card ≤ (target.order cls).length)
    (pinning : Pinning target (virtualRegs inst.operands) current) {rest : List MOperand}
    (wasVirtual : Bool) (defines : (target.opcodeInfo inst.opcode).definesOperand0 = true)
    (head : inst.operands.head? = some (.reg (.vreg vreg)))
    (shape : operands = .reg (.vreg vreg) :: rest) :
    InstStep target access function base values outcome k inst placed
      ({ inst with operands := (defineOperand0 target wasVirtual operands current).1 },
        (defineOperand0 target wasVirtual operands current).2) := by
  have others : ∀ (written : MOperand) (index phys : ℕ),
      operands[index]? = some (.reg (.phys phys)) →
      (written :: rest)[index]? = some (.reg (.phys phys)) := by
    intro written index phys found
    cases index with
    | zero => simp [shape] at found
    | succ index => simpa [shape] using found
  cases bound : current.state.vregToPhys.lookup vreg with
  | some phys =>
    have result : defineOperand0 target wasVirtual operands current =
        (.reg (.phys phys) :: rest, current) := by
      simp [defineOperand0, shape, bound]
    rw [result]
    constructor
    · exact reads_of_observed observed rfl (others _)
    · rw [valueAfter_def notCall defines head]
      exact (holding.forget vreg).sourceDef bound notCall defines rfl
  | none =>
    have result : defineOperand0 target wasVirtual operands current =
        (.reg (.phys (current.allocate target vreg).1) :: rest,
          (current.allocate target vreg).2) := by
      simp [defineOperand0, shape, bound]
    have isNamed : vreg ∈ virtualRegs inst.operands :=
      List.mem_filterMap.mpr ⟨_, mem_of_mem_head? head, rfl⟩
    have allocated := holding.allocate spillCode bound
      (pinning.room regular holding.toWellPlaced isNamed bound (fits _))
    rw [result]
    constructor
    · exact reads_of_observed observed allocated.regs (others _)
    · rw [valueAfter_def notCall defines head]
      exact allocated.holding.sourceDef allocated.bound notCall defines rfl

end Cases

theorem WellPlaced.free_of_outside {current : InstState Op}
    (placed : WellPlaced target function current) {phys : ℕ}
    (outside : phys ∉ target.regs.gprOrder ∧ phys ∉ target.regs.fprOrder) :
    current.state.physToVreg.lookup phys = none := by
  cases held : current.state.physToVreg.lookup phys with
  | none => rfl
  | some vreg =>
    have inOrder := placed.ordered vreg phys ((placed.coherent vreg phys).mpr held)
    exact absurd (mem_order_cases inOrder) (by simp [outside])

section

variable (spillCode : SpillCode target access function) (regular : target.Regular) {inst : MInst Op}
  (fits : ∀ cls, (namedInOrder function cls inst).card ≤ (target.order cls).length)
  (outside : ∀ phys ∈ explicitRegs inst.operands,
    phys ∉ target.regs.gprOrder ∧ phys ∉ target.regs.fprOrder)
  {before : MFunction Op} {state : AllocState}
include spillCode regular fits outside

/-- The definition of operand 0, after the reads. -/
theorem define_step {outcome : Outcome} {k : ℕ} {placed : AllocState} {operands : List MOperand}
    {current : InstState Op} (isReads : afterReads target inst before state = (operands, current))
    (holding : Holding target access function base values current)
    (pinning : Pinning target (virtualRegs inst.operands) current)
    (observed : ∀ index vreg : ℕ, ReadsVreg target inst index vreg →
      ∃ rewritten, operands[index]? = some rewritten ∧
        Observes access function base values current vreg rewritten)
    (notCall : (target.opcodeInfo inst.opcode).isCall = false)
    (defines : (target.opcodeInfo inst.opcode).definesOperand0 = true) :
    InstStep target access function base values outcome k inst placed
      ({ inst with operands :=
          (defineOperand0 target (op0WasVirtual inst.operands) operands current).1 },
        (defineOperand0 target (op0WasVirtual inst.operands) operands current).2) := by
  -- an operand that is no register stays what it is
  have plain : (∀ vreg, inst.operands.head? ≠ some (.reg (.vreg vreg))) →
      defineOperand0 target (op0WasVirtual inst.operands) operands current =
        (operands, current) →
      (∀ phys, operands.head? = some (.reg (.phys phys)) → phys ∈ explicitRegs inst.operands) →
      InstStep target access function base values outcome k inst placed
        ({ inst with operands :=
            (defineOperand0 target (op0WasVirtual inst.operands) operands current).1 },
          (defineOperand0 target (op0WasVirtual inst.operands) operands current).2) := by
    intro notVreg unchanged explicit
    rw [unchanged]
    refine instStep_plain holding observed notCall ?_ ?_
    · intro vreg
      simp [definesVreg, notVreg vreg]
    · intro _ phys head
      exact outside phys (explicit phys head)
  obtain rfl : (afterReads target inst before state).1 = operands := by rw [isReads]
  cases shape : inst.operands with
  | nil =>
    have empty : (afterReads target inst before state).1 = [] := by
      simp [afterReads, shape, readOperands]
    rw [← shape]
    refine plain (by simp [shape]) (by rw [empty]; rfl) (by simp [empty])
  | cons operand operands =>
    rw [← shape]
    obtain ⟨rest, first⟩ : ∃ rest, (afterReads target inst before state).1 =
        (readOperand target (target.opcodeInfo inst.opcode) 0 operand
          { function := before, state := state, pinned := explicitRegs inst.operands }).1 ::
            rest := by
      simp only [afterReads, shape]
      exact ⟨_, rfl⟩
    cases operand with
    | imm _ | frame _ _ | symbol _ _ _ | label _ =>
      simp only [readOperand] at first
      exact plain (by simp [shape]) (by rw [first]; rfl) (by simp [first])
    | reg register =>
      cases register with
      | phys phys =>
        simp only [readOperand] at first
        have explicit : phys ∈ explicitRegs inst.operands := by simp [shape, explicitRegs]
        have free := holding.toWellPlaced.free_of_outside (outside phys explicit)
        refine plain (by simp [shape]) ?_ ?_
        · rw [first, shape]
          simp only [defineOperand0, op0WasVirtual, false_eq_true, if_false]
          rw [InstState.evictPhys_free target free]
        · intro other head
          obtain rfl : phys = other := by simpa [first] using head
          exact explicit
      | vreg vreg =>
        have head : inst.operands.head? = some (.reg (.vreg vreg)) := by simp [shape]
        cases writeOnly : isWriteOnlyDef (target.opcodeInfo inst.opcode) 0 with
        | true =>
          simp only [readOperand, writeOnly, if_true] at first
          exact instStep_writeDef holding observed notCall spillCode regular fits pinning _
            defines head first
        | false =>
          have reads : ReadsVreg target inst 0 vreg := ⟨by simp [shape], writeOnly⟩
          obtain ⟨_, found, phys, _, rfl, _⟩ := observed 0 vreg reads
          have isPhys : (afterReads target inst before state).1 = .reg (.phys phys) :: rest := by
            rw [first] at found ⊢
            rw [Option.some.inj found]
          have unchanged : defineOperand0 target (op0WasVirtual inst.operands)
              (afterReads target inst before state).1 current =
                ((afterReads target inst before state).1, current) := by
            rw [isPhys, shape]
            rfl
          rw [unchanged]
          exact instStep_readDef holding observed notCall defines head reads

/-- The walk over one instruction. -/
theorem rewriteInst_step
    (holding : Holding target access function base values (BlockState.walk before state))
    (defined : ∀ index vreg, ReadsVreg target inst index vreg → (values vreg).isSome = true)
    (outcome : Outcome) (k : ℕ) :
    InstStep target access function base values outcome k inst
      (afterReads target inst before state).2.state (rewriteInst target inst before state) := by
  have start : Holding target access function base values
      { function := before, state := state, pinned := explicitRegs inst.operands } :=
    ⟨⟨holding.coherent, holding.ordered, holding.slotRange, holding.slotsApart, holding.classes,
      holding.word, holding.objects⟩, holding.located⟩
  have explicitOnly : Pinning target (virtualRegs inst.operands)
      { function := before, state := state, pinned := explicitRegs inst.operands } := by
    refine ⟨fun phys pinned inOrder => ?_⟩
    have isOutside := outside phys pinned
    exact absurd inOrder (by simp [isOutside])
  obtain ⟨step, observes⟩ := readOperands_step spillCode regular fits 0
    (List.Subset.refl _) start explicitOnly
    fun offset vreg found reads => defined offset vreg ⟨found, by simpa using reads⟩
  have observed : ∀ index vreg : ℕ, ReadsVreg target inst index vreg →
      ∃ rewritten, (afterReads target inst before state).1[index]? = some rewritten ∧
        Observes access function base values (afterReads target inst before state).2 vreg
          rewritten :=
    fun index vreg reads => observes index vreg reads.operand (by simpa using reads.reads)
  have afterHolding : Holding target access function base values
    (afterReads target inst before state).2 := step.holding
  rw [rewriteInst_eq]
  by_cases isCall : (target.opcodeInfo inst.opcode).isCall = true
  · have noDef := regular.calls _ isCall
    obtain ⟨-, regs, -⟩ := clobberForCall_step spillCode regular afterHolding
    simp only [noDef, false_eq_true, if_false, beforeDef, isCall, if_true]
    constructor
    · exact reads_of_observed observed regs fun _ _ found => found
    · exact afterHolding.sourceCall spillCode regular rfl isCall
  · have notCall : (target.opcodeInfo inst.opcode).isCall = false := by simpa using isCall
    have same : beforeDef target inst before state = (afterReads target inst before state).2 := by
      simp [beforeDef, notCall]
    rw [same]
    by_cases defines : (target.opcodeInfo inst.opcode).definesOperand0 = true
    · simp only [defines, if_true]
      exact define_step spillCode regular fits outside rfl afterHolding step.pinning observed notCall
        defines
    · simp only [defines, false_eq_true, if_false]
      exact instStep_plain afterHolding observed notCall (by simp [definesVreg, defines])
        (fun isDef => absurd isDef defines)

end

end Instructions

end Aburi.Backend.FastRegAllocator
