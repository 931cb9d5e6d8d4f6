import Mathlib.Tactic.IntervalCases
import Aburi.Backend.AArch64.Target
import Aburi.Backend.FastValuesPreserved

/-!
# Argument registers and the values alive around them

A register that was set for a call stays as it is while the registers in front of it
suffice for the virtual registers that are alive.
-/

namespace Aburi.Backend.FastRegAllocator

open List InstState

variable {Op : Type}

/-- In the states that the walk is in when it makes them, no register search between
the write and the consumer, and none for the consumer's reads, gets as far as `r`. -/
structure RegistersAhead (target : Target Op) (function : MFunction Op)
    (insts : List (MInst Op)) (r i j : Nat) : Prop where
  between : ∀ k inst, i < k → k < j → insts[k]? = some inst →
    InstAvoids target r inst (stateBefore target function insts k).function
      (stateBefore target function insts k).state
  consumer : ∀ inst, insts[j]? = some inst →
    ReadsAvoid target (target.opcodeInfo inst.opcode) r 0 inst.operands
      { function := (stateBefore target function insts j).function
        state := (stateBefore target function insts j).state
        pinned := explicitRegs inst.operands }

def namedIn (insts : List (MInst Op)) : Finset Nat :=
  (insts.flatMap fun inst => virtualRegs inst.operands).toFinset

/-- Virtual registers that are named up to instruction `k` and from it on. -/
def aliveAt (insts : List (MInst Op)) (k : Nat) : Finset Nat :=
  namedIn (insts.take (k + 1)) ∩ namedIn (insts.drop k)

/-- The registers in front of `r` that a class may have. -/
def ahead (regs : TargetRegInfo) (cls : RegClass) (r : Nat) : Finset Nat :=
  ((regs.tried cls).takeWhile (· != r)).toFinset.filter fun phys =>
    cls = .fpr128 → regs.isCalleeSaved phys = false

/-- There are more registers in front of `r` than other virtual registers alive at
instruction `k` that could be in them and registers among them that it names. -/
def HasRoom (regs : TargetRegInfo) (function : MFunction Op) (insts : List (MInst Op))
    (r k : Nat) (inst : MInst Op) (vreg : Nat) : Prop :=
  let registers := ahead regs (function.vregClass vreg) r
  (((aliveAt insts k).erase vreg).filter fun other =>
      ∃ phys ∈ registers, phys ∈ regs.tried (function.vregClass other)).card +
    ((explicitRegs inst.operands).toFinset ∩ registers).card < registers.card

/-- Every virtual register that an instruction names between the write and the consumer,
or that the consumer reads, has room in front of `r` if its order comes to `r`. -/
def AliveFit (target : Target Op) (function : MFunction Op) (insts : List (MInst Op))
    (r i j : Nat) : Prop :=
  ∀ k inst, i < k → k ≤ j → insts[k]? = some inst →
    ∀ index vreg, inst.operands[index]? = some (.reg (.vreg vreg)) →
      (k = j → isWriteOnlyDef (target.opcodeInfo inst.opcode) index = false) →
      r ∈ target.regs.tried (function.vregClass vreg) ∨ r = 0 →
      HasRoom target.regs function insts r k inst vreg

variable {target : Target Op} {function : MFunction Op} {insts : List (MInst Op)}
  {inst : MInst Op} {current : InstState Op} {alive : Finset Nat} {vreg phys r k : Nat}

/-- The registers hold virtual registers from `alive`, each in a register of its order. -/
structure Tenants (target : Target Op) (function : MFunction Op) (alive : Finset Nat)
    (current : InstState Op) : Prop where
  coherent : current.state.Coherent
  alive : ∀ phys vreg, current.state.physToVreg.lookup phys = some vreg → vreg ∈ alive
  tried : ∀ phys vreg, current.state.physToVreg.lookup phys = some vreg →
    phys ∈ target.regs.tried (function.vregClass vreg)
  classes : current.function.vregClasses = function.vregClasses

theorem Tenants.vregClass (tenants : Tenants target function alive current) (vreg : Nat) :
    current.function.vregClass vreg = function.vregClass vreg := by
  rw [MFunction.vregClass, tenants.classes, MFunction.vregClass]

theorem insertMem_vregClasses (opcode : Op) (vreg phys : Nat) (current : InstState Op) :
    (current.insertMem opcode vreg phys).function.vregClasses =
      current.function.vregClasses := by
  unfold insertMem spillSlotFor
  cases current.state.spillSlots.lookup vreg <;> rfl

theorem Tenants.insertMem (tenants : Tenants target function alive current) (opcode : Op)
    (vreg phys : Nat) : Tenants target function alive (current.insertMem opcode vreg phys) := by
  refine ⟨insertMem_coherent tenants.coherent opcode vreg phys, ?_, ?_, ?_⟩
  · simpa using tenants.alive
  · simpa using tenants.tried
  · rw [insertMem_vregClasses]
    exact tenants.classes

theorem unassign_holds {state : AllocState} {other : Nat} (coherent : state.Coherent)
    (held : (state.unassign vreg).physToVreg.lookup phys = some other) :
    state.physToVreg.lookup phys = some other ∧ other ≠ vreg := by
  have bound := ((coherent.unassign vreg) other phys).mpr held
  have different : other ≠ vreg := by
    rintro rfl
    rw [unassign_lookup_self] at bound
    cases bound
  rw [unassign_lookup_ne different] at bound
  exact ⟨(coherent other phys).mp bound, different⟩

theorem Tenants.evictPhys (tenants : Tenants target function alive current) (phys : Nat) :
    Tenants target function alive (current.evictPhys target phys) := by
  cases held : current.state.physToVreg.lookup phys with
  | none =>
    rw [evictPhys_free target held]
    exact tenants
  | some vreg =>
    rw [evictPhys_held target held]
    have spilled : Tenants target function alive (current.makeSpill target vreg phys) :=
      tenants.insertMem _ vreg phys
    refine ⟨spilled.coherent.unassign vreg, ?_, ?_, spilled.classes⟩
    · exact fun other tenant isHeld =>
        spilled.alive other tenant (unassign_holds spilled.coherent isHeld).1
    · exact fun other tenant isHeld =>
        spilled.tried other tenant (unassign_holds spilled.coherent isHeld).1

theorem Tenants.take (tenants : Tenants target function alive current) (isAlive : vreg ∈ alive)
    (unbound : current.state.vregToPhys.lookup vreg = none)
    (free : current.state.physToVreg.lookup phys = none)
    (tried : phys ∈ target.regs.tried (function.vregClass vreg)) :
    Tenants target function alive (current.take target vreg phys) := by
  have holds (other : Nat) :
      (current.take target vreg phys).state.physToVreg.lookup other =
        if other = phys then some vreg else current.state.physToVreg.lookup other := by
    split
    case isTrue same =>
      subst same
      simp [InstState.take, AllocState.assign]
    case isFalse different =>
      simp [InstState.take, AllocState.assign, AList.lookup_insert_ne different]
  refine ⟨take_coherent target tenants.coherent unbound free, ?_, ?_, ?_⟩
  · intro other tenant held
    rw [holds] at held
    split at held
    case isTrue => exact Option.some.inj held ▸ isAlive
    case isFalse => exact tenants.alive other tenant held
  · intro other tenant held
    rw [holds] at held
    split at held
    case isTrue same => exact Option.some.inj held ▸ same ▸ tried
    case isFalse => exact tenants.tried other tenant held
  · exact (noteUsedCsr_keeps target.regs phys current.function).1.trans tenants.classes

/-- `allocate` takes an unpinned register, which it may have to evict, or binds nothing. -/
theorem allocate_unpinned_or (target : Target Op) (vreg : Nat) (current : InstState Op) :
    (∃ phys ∈ target.regs.tried (current.function.vregClass vreg), phys ∉ current.pinned ∧
      current.allocate target vreg =
        (phys, (current.evictPhys target phys).take target vreg phys)) ∨
      current.allocate target vreg = (0, current) := by
  by_cases room : ∃ phys ∈ target.order (current.function.vregClass vreg),
      current.isPinned phys = false
  · obtain ⟨phys, inOrder, unpinned, result⟩ := allocate_of_room room
    rw [order_eq_tried] at inOrder
    exact .inl ⟨phys, inOrder, by simpa [isPinned] using unpinned, result⟩
  · right
    have pinned : ∀ phys ∈ target.order (current.function.vregClass vreg),
        current.isPinned phys = true := by
      intro phys inOrder
      by_contra unpinned
      exact room ⟨phys, inOrder, by simpa using unpinned⟩
    have none : (target.order (current.function.vregClass vreg)).find?
        (fun phys => !current.isPinned phys) = none :=
      find?_eq_none.mpr fun phys inOrder => by simp [pinned phys inOrder]
    have noneFree : (target.order (current.function.vregClass vreg)).find?
        (current.isFree target (current.function.vregClass vreg)) = .none :=
      find?_eq_none.mpr fun phys inOrder => by simp [isFree, pinned phys inOrder]
    simp only [allocate, noneFree, none]

theorem Tenants.allocate (tenants : Tenants target function alive current)
    (isAlive : vreg ∈ alive) (unbound : current.state.vregToPhys.lookup vreg = none) :
    Tenants target function alive (current.allocate target vreg).2 := by
  rcases allocate_unpinned_or target vreg current with ⟨phys, tried, -, result⟩ | result
  · rw [result]
    rw [tenants.vregClass] at tried
    exact (tenants.evictPhys phys).take isAlive
      (evictPhys_keeps_unbound target unbound phys)
      (evictPhys_frees target tenants.coherent phys) tried
  · rw [result]
    exact tenants

/-- Pinned registers are named explicitly or hold a virtual register. -/
def PinnedHeld (explicit : List Nat) (current : InstState Op) : Prop :=
  ∀ phys ∈ current.pinned, phys ∈ explicit ∨
    (current.state.physToVreg.lookup phys).isSome = true

theorem PinnedHeld.allocate {explicit : List Nat} (pinnedHeld : PinnedHeld explicit current)
    (coherent : current.state.Coherent) (vreg : Nat) :
    PinnedHeld explicit (current.allocate target vreg).2 := by
  rcases allocate_unpinned_or target vreg current with ⟨phys, -, unpinned, result⟩ | result
  · rw [result]
    intro other pinned
    have isPinned : other ∈ current.pinned ++ [phys] := by
      simpa [InstState.take, evictPhys_pinned] using pinned
    by_cases same : other = phys
    · subst same
      exact .inr (by simp [InstState.take, AllocState.assign])
    · have old : other ∈ current.pinned :=
        (mem_append.mp isPinned).resolve_right fun new => same (mem_singleton.mp new)
      refine (pinnedHeld other old).imp_right fun held => ?_
      simpa [InstState.take, AllocState.assign, AList.lookup_insert_ne same,
        evictPhys_physToVreg_ne coherent same] using held
  · rw [result]
    exact pinnedHeld

theorem mem_virtualRegs {operands : List MOperand}
    (member : MOperand.reg (.vreg vreg) ∈ operands) : vreg ∈ virtualRegs operands :=
  mem_filterMap.mpr ⟨_, member, rfl⟩

section Reads

variable {info : RegAllocOpcodeInfo} {index : Nat} {operand : MOperand} {explicit : List Nat}

theorem readOperand_tenants (info : RegAllocOpcodeInfo) (index : Nat)
    (tenants : Tenants target function alive current)
    (pinnedHeld : PinnedHeld explicit current)
    (named : ∀ vreg, operand = .reg (.vreg vreg) → vreg ∈ alive) :
    Tenants target function alive (readOperand target info index operand current).2 ∧
      PinnedHeld explicit (readOperand target info index operand current).2 := by
  rcases readOperand_cases target info index operand current with
    same | ⟨vreg, phys, isVreg, bound, result⟩ | ⟨vreg, isVreg, notWriteOnly, unbound⟩
  · rw [same]
    exact ⟨tenants, pinnedHeld⟩
  · rw [result]
    refine ⟨⟨tenants.coherent, tenants.alive, tenants.tried, tenants.classes⟩, ?_⟩
    intro other pinned
    rcases mem_append.mp pinned with old | new
    · exact pinnedHeld other old
    · right
      rw [mem_singleton.mp new, InstState.pin, (tenants.coherent vreg phys).mp bound]
      rfl
  · subst isVreg
    rw [readOperand_reload target info notWriteOnly unbound]
    refine ⟨(tenants.allocate (named vreg rfl) unbound).insertMem _ _ _, ?_⟩
    intro other pinned
    rw [makeReload, insertMem_pinned] at pinned
    rw [makeReload, insertMem_physToVreg]
    exact pinnedHeld.allocate tenants.coherent vreg other pinned

theorem readOperands_tenants {operands : List MOperand}
    (named : ∀ vreg ∈ virtualRegs operands, vreg ∈ alive) (index : Nat)
    (tenants : Tenants target function alive current) (pinnedHeld : PinnedHeld explicit current) :
    Tenants target function alive (readOperands target info index operands current).2 ∧
      PinnedHeld explicit (readOperands target info index operands current).2 := by
  induction operands generalizing index current with
  | nil => exact ⟨tenants, pinnedHeld⟩
  | cons operand operands ih =>
    have step := readOperand_tenants info index tenants pinnedHeld
      fun vreg isVreg => named vreg (mem_virtualRegs (isVreg ▸ .head _))
    apply ih _ _ step.1 step.2
    intro vreg member
    apply named
    exact (List.Sublist.filterMap _ (sublist_cons_self operand operands)).subset member

/-- With room in front of `r` one of the registers there can be taken: those that hold
something hold other virtual registers that are alive. -/
theorem Tenants.vacant_ahead (tenants : Tenants target function (aliveAt insts k) current)
    (pinnedHeld : PinnedHeld (explicitRegs inst.operands) current)
    (unbound : current.state.vregToPhys.lookup vreg = none)
    (room : HasRoom target.regs function insts r k inst vreg) :
    ∃ phys ∈ ahead target.regs (function.vregClass vreg) r,
      Vacant target.regs (function.vregClass vreg) current phys := by
  by_contra full
  push Not at full
  have held : ∀ phys ∈ ahead target.regs (function.vregClass vreg) r \
      (explicitRegs inst.operands).toFinset,
      ∃ other, current.state.physToVreg.lookup phys = some other := by
    intro phys member
    obtain ⟨inAhead, notNamed⟩ := Finset.mem_sdiff.mp member
    cases isHeld : current.state.physToVreg.lookup phys with
    | some other => exact ⟨other, rfl⟩
    | none =>
      refine absurd ⟨?_, isHeld, (Finset.mem_filter.mp inAhead).2⟩ (full phys inAhead)
      intro pinned
      rcases pinnedHeld phys pinned with named | tenant
      · exact notNamed (List.mem_toFinset.mpr named)
      · rw [isHeld] at tenant
        cases tenant
  have holder : ∀ phys ∈ ahead target.regs (function.vregClass vreg) r \
      (explicitRegs inst.operands).toFinset,
      (current.state.physToVreg.lookup phys).getD 0 ∈
        ((aliveAt insts k).erase vreg).filter fun other =>
          ∃ phys ∈ ahead target.regs (function.vregClass vreg) r,
            phys ∈ target.regs.tried (function.vregClass other) := by
    intro phys member
    obtain ⟨other, isHeld⟩ := held phys member
    rw [isHeld, Option.getD_some]
    refine Finset.mem_filter.mpr ⟨Finset.mem_erase.mpr ⟨?_, tenants.alive phys other isHeld⟩,
      phys, (Finset.mem_sdiff.mp member).1, tenants.tried phys other isHeld⟩
    rintro rfl
    rw [(tenants.coherent other phys).mpr isHeld] at unbound
    cases unbound
  have injective : Set.InjOn (fun phys => (current.state.physToVreg.lookup phys).getD 0)
      (ahead target.regs (function.vregClass vreg) r \ (explicitRegs inst.operands).toFinset :
        Finset Nat) := by
    intro left inLeft right inRight same
    obtain ⟨other, leftHeld⟩ := held left inLeft
    obtain ⟨other', rightHeld⟩ := held right inRight
    simp only [leftHeld, rightHeld, Option.getD_some] at same
    subst same
    have leftBound := (tenants.coherent other left).mpr leftHeld
    have rightBound := (tenants.coherent other right).mpr rightHeld
    exact Option.some.inj (leftBound.symm.trans rightBound)
  have counted := Finset.card_le_card_of_injOn _ holder injective
  have split := Finset.card_sdiff_add_card_inter
    (ahead target.regs (function.vregClass vreg) r) (explicitRegs inst.operands).toFinset
  rw [Finset.inter_comm] at split
  simp only [HasRoom] at room
  omega

theorem stopsBefore_of_ahead
    (vacant : ∃ phys ∈ ahead target.regs (function.vregClass vreg) r,
      Vacant target.regs (function.vregClass vreg) current phys) :
    StopsBefore target.regs (function.vregClass vreg) r current := by
  obtain ⟨phys, inAhead, isVacant⟩ := vacant
  have inFront := List.mem_toFinset.mp (Finset.mem_filter.mp inAhead).1
  have tried := (List.takeWhile_sublist _).subset inFront
  exact ⟨fun _ _ => ⟨phys, inFront, isVacant⟩, fun _ _ none => absurd isVacant (none phys tried),
    fun _ => ⟨phys, tried, isVacant.unnamed⟩⟩

/-- A search whose order does not come to `r` never ends there. -/
theorem stopsBefore_of_untried {cls : RegClass} (untried : r ∉ target.regs.tried cls)
    (notFallback : r ≠ 0) : StopsBefore target.regs cls r current :=
  ⟨fun tried => absurd tried untried, fun tried => absurd tried untried,
    fun zero => absurd zero notFallback⟩

theorem Tenants.stopsBefore (tenants : Tenants target function (aliveAt insts k) current)
    (pinnedHeld : PinnedHeld (explicitRegs inst.operands) current)
    (unbound : current.state.vregToPhys.lookup vreg = none)
    (room : r ∈ target.regs.tried (function.vregClass vreg) ∨ r = 0 →
      HasRoom target.regs function insts r k inst vreg) :
    StopsBefore target.regs (current.function.vregClass vreg) r current := by
  rw [tenants.vregClass]
  by_cases reached : r ∈ target.regs.tried (function.vregClass vreg) ∨ r = 0
  · exact stopsBefore_of_ahead (tenants.vacant_ahead pinnedHeld unbound (room reached))
  · push Not at reached
    exact stopsBefore_of_untried reached.1 reached.2

theorem readsAvoid_of_room {operands : List MOperand} (index : Nat)
    (named : ∀ vreg ∈ virtualRegs operands, vreg ∈ aliveAt insts k)
    (tenants : Tenants target function (aliveAt insts k) current)
    (pinnedHeld : PinnedHeld (explicitRegs inst.operands) current)
    (room : ∀ offset vreg, operands[offset]? = some (.reg (.vreg vreg)) →
      isWriteOnlyDef info (index + offset) = false →
      r ∈ target.regs.tried (function.vregClass vreg) ∨ r = 0 →
      HasRoom target.regs function insts r k inst vreg) :
    ReadsAvoid target info r index operands current := by
  induction operands generalizing index current with
  | nil => trivial
  | cons operand operands ih =>
    have step := readOperand_tenants info index tenants pinnedHeld
      fun vreg isVreg => named vreg (mem_virtualRegs (isVreg ▸ .head _))
    refine ⟨?_, ih (index + 1) ?_ step.1 step.2 ?_⟩
    · intro vreg isVreg reads unbound
      exact tenants.stopsBefore pinnedHeld unbound (room 0 vreg (by rw [isVreg]; rfl) reads)
    · intro vreg member
      apply named
      exact (List.Sublist.filterMap _ (sublist_cons_self operand operands)).subset member
    · intro offset vreg found reads
      apply room (offset + 1) vreg found
      rwa [Nat.add_comm offset, ← Nat.add_assoc]

end Reads

section Blocks

theorem mem_namedIn {list : List (MInst Op)} (member : inst ∈ list)
    (named : vreg ∈ virtualRegs inst.operands) : vreg ∈ namedIn list :=
  List.mem_toFinset.mpr (mem_flatMap.mpr ⟨inst, member, named⟩)

theorem namedIn_mono {list list' : List (MInst Op)} (subset : list ⊆ list') :
    namedIn list ⊆ namedIn list' := by
  intro vreg member
  obtain ⟨inst, isMember, named⟩ := mem_flatMap.mp (List.mem_toFinset.mp member)
  exact mem_namedIn (subset isMember) named

theorem mem_aliveAt (found : insts[k]? = some inst)
    (named : vreg ∈ virtualRegs inst.operands) : vreg ∈ aliveAt insts k := by
  have upTo : (insts.take (k + 1))[k]? = some inst := by
    rw [getElem?_take_of_lt (Nat.lt_succ_self k), found]
  have fromHere : (insts.drop k)[0]? = some inst := by
    rw [getElem?_drop, Nat.add_zero, found]
  exact Finset.mem_inter.mpr
    ⟨mem_namedIn (mem_of_getElem? upTo) named, mem_namedIn (mem_of_getElem? fromHere) named⟩

theorem noteUses_named (insts : List (MInst Op)) {final : Nat} :
    ∀ (start : Nat) (last : RegMap),
      ((insts.zipIdx start).foldl noteUses last).lookup vreg = some final →
      last.lookup vreg = some final ∨
        ∃ k inst, insts[k]? = some inst ∧ start + k = final ∧ vreg ∈ virtualRegs inst.operands := by
  induction insts with
  | nil => exact fun start last noted => .inl noted
  | cons first rest ih =>
    intro start last noted
    rw [zipIdx_cons, foldl_cons] at noted
    rcases ih (start + 1) _ noted with here | ⟨k, inst, found, place, named⟩
    · rw [noteUses, insertAll_lookup] at here
      split at here
      case isTrue named => exact .inr ⟨0, first, rfl, Option.some.inj here, named⟩
      case isFalse => exact .inl here
    · exact .inr ⟨k + 1, inst, found, by omega, named⟩

theorem mem_namedIn_drop_succ (found : insts[k]? = some inst)
    (alive : vreg ∈ namedIn (insts.drop k))
    (kept : vreg ∈ virtualRegs inst.operands → (lastUse insts).lookup vreg ≠ some k) :
    vreg ∈ namedIn (insts.drop (k + 1)) := by
  have inRange := (List.getElem?_eq_some_iff.mp found).1
  have isInst := (List.getElem?_eq_some_iff.mp found).2
  rw [drop_eq_getElem_cons inRange, isInst] at alive
  obtain ⟨other, member, otherNamed⟩ := mem_flatMap.mp (List.mem_toFinset.mp alive)
  rcases mem_cons.mp member with same | later
  · subst same
    obtain ⟨final, isFinal, bound⟩ := live_of_named found otherNamed
    have different : final ≠ k := by
      rintro rfl
      exact kept otherNamed isFinal
    rcases noteUses_named insts 0 ∅ isFinal with noted | ⟨place, use, atPlace, isPlace, useNamed⟩
    · simp at noted
    · have inDrop : (insts.drop (k + 1))[place - (k + 1)]? = some use := by
        rw [getElem?_drop, Nat.add_sub_cancel' (by omega), atPlace]
      exact mem_namedIn (mem_of_getElem? inDrop) useNamed
  · exact mem_namedIn later otherNamed

theorem releaseLastUses_holds {last : RegMap} {index : Nat} {state : AllocState}
    (coherent : state.Coherent)
    (held : (releaseLastUses last index inst state).physToVreg.lookup phys = some vreg) :
    state.physToVreg.lookup phys = some vreg ∧
      (vreg ∈ virtualRegs inst.operands → last.lookup vreg ≠ some index) := by
  unfold releaseLastUses at held
  revert held
  induction virtualRegs inst.operands generalizing state with
  | nil => exact fun held => ⟨held, fun member => absurd member not_mem_nil⟩
  | cons first rest ih =>
    intro held
    rw [foldl_cons] at held
    by_cases final : last.lookup first = some index
    · rw [if_pos final] at held
      obtain ⟨before, kept⟩ := ih (coherent.unassign first) held
      obtain ⟨held, different⟩ := unassign_holds coherent before
      exact ⟨held, fun member => kept ((mem_cons.mp member).resolve_left different)⟩
    · rw [if_neg final] at held
      obtain ⟨before, kept⟩ := ih coherent held
      refine ⟨before, fun member => ?_⟩
      rcases mem_cons.mp member with same | later
      · exact same ▸ final
      · exact kept later

theorem Tenants.clobberForCall (tenants : Tenants target function alive current) :
    Tenants target function alive (clobberForCall target current) := by
  unfold FastRegAllocator.clobberForCall
  generalize (target.visitOrder current.state.physToVreg.keys).filter
    (fun phys => !target.regs.isCalleeSaved phys) = clobbered
  induction clobbered generalizing current with
  | nil => exact tenants
  | cons phys clobbered ih => exact ih (tenants.evictPhys phys)

theorem Tenants.mono {alive' : Finset Nat} (tenants : Tenants target function alive current)
    (subset : alive ⊆ alive') : Tenants target function alive' current :=
  ⟨tenants.coherent, fun phys vreg held => subset (tenants.alive phys vreg held), tenants.tried,
    tenants.classes⟩

section

variable {before : MFunction Op} {state : AllocState}

theorem afterReads_tenants
    (tenants : Tenants target function alive (BlockState.walk before state))
    (named : ∀ vreg ∈ virtualRegs inst.operands, vreg ∈ alive) :
    Tenants target function alive (afterReads target inst before state).2 ∧
      PinnedHeld (explicitRegs inst.operands) (afterReads target inst before state).2 :=
  readOperands_tenants named 0
    ⟨tenants.coherent, tenants.alive, tenants.tried, tenants.classes⟩ fun _ => .inl

theorem rewriteInst_tenants
    (tenants : Tenants target function alive (BlockState.walk before state))
    (named : ∀ vreg ∈ virtualRegs inst.operands, vreg ∈ alive) :
    Tenants target function alive (rewriteInst target inst before state).2 := by
  have reads := (afterReads_tenants tenants named).1
  have beforeDef : Tenants target function alive (beforeDef target inst before state) := by
    unfold FastRegAllocator.beforeDef
    split
    · exact reads.clobberForCall
    · exact reads
  rw [rewriteInst_eq]
  split
  case isFalse => exact beforeDef
  case isTrue =>
    rcases defineOperand0_cases target (op0WasVirtual inst.operands)
        (afterReads target inst before state).1
        (FastRegAllocator.beforeDef target inst before state) with
      ⟨vreg, phys, rest, _, _, result⟩ | ⟨vreg, rest, isVreg, unbound, result⟩ |
        ⟨phys, rest, _, _, result⟩ | result
    · rw [result]
      exact beforeDef
    · rw [result]
      have selected := readOperands_head_vreg target _ (congrArg List.head? isVreg)
      exact beforeDef.allocate
        (named vreg (mem_virtualRegs (mem_of_mem_head? selected))) unbound
    · rw [result]
      exact beforeDef.evictPhys phys
    · rw [result]
      exact beforeDef

end

/-- In front of an instruction the registers hold virtual registers that were named and
will be named again. -/
theorem stateBefore_tenants (target : Target Op) (function : MFunction Op)
    (insts : List (MInst Op)) (k : Nat) :
    Tenants target function (namedIn (insts.take k) ∩ namedIn (insts.drop k))
      (BlockState.walk (stateBefore target function insts k).function
        (stateBefore target function insts k).state) := by
  induction k with
  | zero =>
    refine ⟨AllocState.Coherent.empty, ?_, ?_, rfl⟩
    · intro phys vreg held
      simp [BlockState.walk, stateBefore] at held
    · intro phys vreg held
      simp [BlockState.walk, stateBefore] at held
  | succ k ih =>
    cases found : insts[k]? with
    | none =>
      have short : insts.length ≤ k := by simpa using found
      rw [stateBefore_succ_of_none found, take_of_length_le (Nat.le_succ_of_le short),
        drop_eq_nil_of_le (Nat.le_succ_of_le short)]
      rwa [take_of_length_le short, drop_eq_nil_of_le short] at ih
    | some inst =>
      have here := ih.mono (Finset.inter_subset_inter
        (namedIn_mono (take_subset_take_left insts (Nat.le_succ k))) (Finset.Subset.refl _))
      have after := rewriteInst_tenants here fun vreg named => mem_aliveAt found named
      rw [stateBefore_succ target function found]
      refine ⟨releaseLastUses_coherent after.coherent, ?_, ?_, after.classes⟩
      · intro phys vreg held
        obtain ⟨before, kept⟩ := releaseLastUses_holds after.coherent held
        obtain ⟨upTo, fromHere⟩ := Finset.mem_inter.mp (after.alive phys vreg before)
        exact Finset.mem_inter.mpr ⟨upTo, mem_namedIn_drop_succ found fromHere kept⟩
      · intro phys vreg held
        exact after.tried phys vreg (releaseLastUses_holds after.coherent held).1

theorem registersAhead_of_aliveFit {i j : Nat} (setUp : SetUp target insts r i j)
    (fit : AliveFit target function insts r i j) :
    RegistersAhead target function insts r i j := by
  have here (k : Nat) : Tenants target function (aliveAt insts k)
      (BlockState.walk (stateBefore target function insts k).function
        (stateBefore target function insts k).state) :=
    (stateBefore_tenants target function insts k).mono (Finset.inter_subset_inter
      (namedIn_mono (take_subset_take_left insts (Nat.le_succ k))) (Finset.Subset.refl _))
  have reads (k : Nat) (inst : MInst Op) (after : i < k) (upTo : k ≤ j)
      (found : insts[k]? = some inst) :
      ReadsAvoid target (target.opcodeInfo inst.opcode) r 0 inst.operands
        { function := (stateBefore target function insts k).function
          state := (stateBefore target function insts k).state
          pinned := explicitRegs inst.operands } := by
    apply readsAvoid_of_room 0 fun vreg named => mem_aliveAt found named
    · exact ⟨(here k).coherent, (here k).alive, (here k).tried, (here k).classes⟩
    · exact fun _ => .inl
    · intro offset vreg isVreg isRead
      rw [Nat.zero_add] at isRead
      exact fit k inst after upTo found offset vreg isVreg fun _ => isRead
  refine ⟨?_, fun inst found => reads j inst setUp.order (Nat.le_refl j) found⟩
  intro k inst after before found
  refine ⟨reads k inst after (Nat.le_of_lt before) found, ?_⟩
  intro defines vreg head unbound
  have noCall := (setUp.between k inst after before found).2
  have tenants := afterReads_tenants (here k) fun vreg named => mem_aliveAt found named
  have isVreg := readOperands_head_vreg target _ head
  rw [beforeDef, noCall] at unbound ⊢
  apply tenants.1.stopsBefore tenants.2 unbound
  exact fit k inst after (Nat.le_of_lt before) found 0 vreg
    (by rwa [head?_eq_getElem?] at isVreg) fun same => absurd same (by omega)

theorem registersAhead_iff {i j : Nat} (setUp : SetUp target insts r i j) :
    KeepsIntact target function insts r i j ↔ RegistersAhead target function insts r i j := by
  constructor
  · intro intact
    refine ⟨?_, ?_⟩
    · intro k inst after before found
      exact instAvoids_of_leavesAlone target (intact.between k inst after before found).1
    · intro inst found
      exact readsAvoid_of_rewriteInst target
        (fun extra member => (intact.consumer inst found extra member).1)
  · intro avoids
    have free := stateBefore_free target function setUp avoids.between
    refine ⟨?_, ?_⟩
    · intro k inst after before found
      have alone := (rewriteInst_clear target
        (stateBefore_coherent target function insts k)
        (free k after (by omega))
        (avoids.between k inst after before found)).2
      exact ⟨alone, alone.not_writes (setUp.between k inst after before found).1⟩
    · intro inst found emitted member
      have unnamed := consumer_unnamed target
        (stateBefore_coherent target function insts j)
        (free j setUp.order (Nat.le_refl j))
        (avoids.consumer inst found) emitted member
      exact ⟨unnamed, not_writes_of_not_names unnamed⟩

end Blocks

section ArgumentSetup

open AArch64

/-- A block that loads values, passes them to `callee` in `x0` and the registers after it
and stores them back afterwards, so that all of them are live across the call. -/
def liveArguments (count : Nat) : List (MInst A64Op) :=
  (range count).map
      (fun vreg =>
        { opcode := .ldrX
          operands := [.reg (.vreg vreg), .frame vreg 0, .imm 0] }) ++
    lowerCall ((range count).map fun vreg => { vreg := vreg })
      (.symbol "callee") ++
    (range count).map
      (fun vreg =>
        { opcode := .strX
          operands := [.reg (.vreg vreg), .frame vreg 0, .imm 0] })

def liveFunction (count : Nat) : MFunction A64Op :=
  { blocks := [{ insts := liveArguments count }]
    frameObjects := replicate count ⟨8, 8⟩
    vregClasses := replicate count .gpr }

theorem sevenArguments_setUp : SetUp (fastTarget id) (liveArguments 7) 0 7 14 := by
  refine ⟨by decide, ⟨_, rfl, by decide, by decide⟩, ⟨_, rfl, .inr (by decide)⟩, ?_⟩
  intro k inst after before found
  unfold WritesExplicitly
  interval_cases k <;> (cases found; exact ⟨by decide, by decide⟩)

theorem eightArguments_setUp : SetUp (fastTarget id) (liveArguments 8) 0 8 16 := by
  refine ⟨by decide, ⟨_, rfl, by decide, by decide⟩, ⟨_, rfl, .inr (by decide)⟩, ?_⟩
  intro k inst after before found
  unfold WritesExplicitly
  interval_cases k <;> (cases found; exact ⟨by decide, by decide⟩)

end ArgumentSetup

end Aburi.Backend.FastRegAllocator
