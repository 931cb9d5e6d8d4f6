import Aburi.Backend.FastAllocSteps

/-!
# Explicit physical registers under the fast allocator

Argument setup writes physical registers explicitly and a later call reads
them.  The allocator remembers nothing of such a write after the instruction,
so a virtual register may be bound to the written register in between.  That
happens exactly when the order has nothing for a register search in front of the
written register.
-/

namespace Aburi.Backend.FastRegAllocator

open List InstState

variable {Op : Type}

/-- Register `r` holds no virtual register, and no instruction inserted so far
names it. -/
structure Clear (r : Nat) (current : InstState Op) : Prop where
  coherent : current.state.Coherent
  free : current.state.physToVreg.lookup r = none
  unnamed : ∀ extra ∈ current.inserted, ¬Names r extra

/-- In front of every read operand that still needs a register its order has enough
in front of `r`. -/
def ReadsAvoid (target : Target Op) (info : RegAllocOpcodeInfo) (r : Nat) :
    Nat → List MOperand → InstState Op → Prop
  | _, [], _ => True
  | index, operand :: operands, current =>
    (∀ vreg, operand = .reg (.vreg vreg) →
      isWriteOnlyDef info index = false →
      current.state.vregToPhys.lookup vreg = none →
      StopsBefore target.regs (current.function.vregClass vreg) r current) ∧
    ReadsAvoid target info r (index + 1) operands (readOperand target info index operand current).2

variable {index : Nat} {current : InstState Op}

theorem readOperand_reload (target : Target Op) (info : RegAllocOpcodeInfo) {vreg : Nat}
    (notWriteOnly : isWriteOnlyDef info index = false)
    (unbound : current.state.vregToPhys.lookup vreg = none) :
    readOperand target info index (.reg (.vreg vreg)) current =
      (.reg (.phys (current.searchResult target vreg)),
        (current.allocate target vreg).2.makeReload target vreg
          (current.searchResult target vreg)) := by
  rw [← InstState.allocate_fst]
  simp [readOperand, notWriteOnly, unbound]

theorem readOperand_cases (target : Target Op) (info : RegAllocOpcodeInfo)
    (index : Nat) (operand : MOperand) (current : InstState Op) :
    readOperand target info index operand current = (operand, current) ∨
      (∃ vreg phys, operand = .reg (.vreg vreg) ∧
        current.state.vregToPhys.lookup vreg = some phys ∧
        readOperand target info index operand current = (.reg (.phys phys), current.pin phys)) ∨
      (∃ vreg, operand = .reg (.vreg vreg) ∧
        isWriteOnlyDef info index = false ∧
        current.state.vregToPhys.lookup vreg = none) := by
  cases operand with
  | reg register =>
    cases register with
    | phys _ => exact .inl rfl
    | vreg vreg =>
      cases writeOnly : isWriteOnlyDef info index with
      | true => exact .inl (by simp [readOperand, writeOnly])
      | false =>
        right
        cases bound : current.state.vregToPhys.lookup vreg with
        | none => exact .inr ⟨vreg, rfl, rfl, bound⟩
        | some phys =>
          exact .inl ⟨vreg, phys, rfl, bound, by simp [readOperand, writeOnly, bound]⟩
  | imm _ | frame _ _ | symbol _ _ _ | label _ => exact .inl rfl

theorem reload_inserted (target : Target Op) (vreg : Nat)
    (current : InstState Op) :
    ∃ spills load,
      ((current.allocate target vreg).2.makeReload target vreg
          (current.searchResult target vreg)).inserted =
        current.inserted ++ (spills ++ [load]) ∧
      (∀ spill ∈ spills, ∀ r, current.state.physToVreg.lookup r = none → ¬Names r spill) ∧
      ∀ r, Names r load ↔ r = current.searchResult target vreg := by
  obtain ⟨spills, spillsInserted, spillsUnnamed⟩ := InstState.allocate_inserted target vreg current
  obtain ⟨load, loadInserted, loadNames⟩ := InstState.insertMem_inserted
    (target.hooks.reloadOpcode ((current.allocate target vreg).2.function.vregClass vreg))
    vreg (current.searchResult target vreg) (current.allocate target vreg).2
  refine ⟨spills, load, ?_, spillsUnnamed, loadNames⟩
  rw [← append_assoc, ← spillsInserted]
  exact loadInserted

variable {r : Nat}

section

variable (target : Target Op) (info : RegAllocOpcodeInfo)
include target info

theorem readOperand_clear {operand : MOperand} (clear : Clear r current)
    (avoids : ∀ vreg, operand = .reg (.vreg vreg) →
      isWriteOnlyDef info index = false →
      current.state.vregToPhys.lookup vreg = none →
      StopsBefore target.regs (current.function.vregClass vreg) r current) :
    Clear r (readOperand target info index operand current).2 ∧
      ((readOperand target info index operand current).1 =
        .reg (.phys r) → operand = .reg (.phys r)) := by
  rcases readOperand_cases target info index operand current with
    same | ⟨vreg, phys, isVreg, bound, result⟩ | ⟨vreg, isVreg, notWriteOnly, unbound⟩
  · rw [same]
    exact ⟨clear, fun equality => equality⟩
  · rw [result]
    refine ⟨⟨clear.coherent, clear.free, clear.unnamed⟩, ?_⟩
    intro equality
    have same : phys = r := by simpa using equality
    have held := (clear.coherent vreg phys).mp bound
    rw [same, clear.free] at held
    cases held
  · have different := searchResult_ne_iff.mpr (avoids vreg isVreg notWriteOnly unbound)
    subst isVreg
    rw [readOperand_reload target info notWriteOnly unbound]
    refine ⟨⟨?_, ?_, ?_⟩, ?_⟩
    · exact InstState.insertMem_coherent
        (InstState.allocate_coherent target clear.coherent unbound) _ _ _
    · simpa [InstState.makeReload] using InstState.allocate_keeps_free target clear.free different
    · intro extra member
      obtain ⟨spills, load, inserted, spillsUnnamed, loadNames⟩ :=
        reload_inserted target vreg current
      rw [inserted] at member
      simp only [mem_append, mem_singleton] at member
      rcases member with old | spill | isLoad
      · exact clear.unnamed extra old
      · exact spillsUnnamed extra spill r clear.free
      · subst isLoad
        exact fun names => different ((loadNames r).mp names).symm
    · intro equality
      exact absurd (by simpa using equality) different

theorem readOperand_inserted_extends (index : Nat) (operand : MOperand) (current : InstState Op) :
    current.inserted <+: (readOperand target info index operand current).2.inserted := by
  rcases readOperand_cases target info index operand current with
    same | ⟨vreg, phys, isVreg, bound, result⟩ | ⟨vreg, isVreg, notWriteOnly, unbound⟩
  · simp only [same, prefix_refl]
  · rw [result]
    exact prefix_refl _
  · subst isVreg
    rw [readOperand_reload target info notWriteOnly unbound]
    obtain ⟨spills, load, inserted, _⟩ := reload_inserted target vreg current
    rw [inserted]
    exact prefix_append _ _

/-- A search that ends at `r` shows: the reload names `r`. -/
theorem readOperand_names {vreg : Nat} (notWriteOnly : isWriteOnlyDef info index = false)
    (unbound : current.state.vregToPhys.lookup vreg = none)
    (taken : current.searchResult target vreg = r) :
    ∃ extra ∈ (readOperand target info index (.reg (.vreg vreg))
      current).2.inserted, Names r extra := by
  rw [readOperand_reload target info notWriteOnly unbound]
  obtain ⟨spills, load, inserted, _, loadNames⟩ := reload_inserted target vreg current
  exact ⟨load, by simp [inserted], (loadNames r).mpr taken.symm⟩

theorem readOperands_inserted_extends (operands : List MOperand) :
    ∀ (index : Nat) (current : InstState Op),
      current.inserted <+: (readOperands target info index operands current).2.inserted := by
  induction operands with
  | nil => exact fun index current => prefix_refl _
  | cons operand operands ih =>
    intro index current
    exact (readOperand_inserted_extends target info index operand current).trans (ih (index + 1) _)

theorem readOperands_clear (operands : List MOperand) :
    ∀ (index : Nat) (current : InstState Op), Clear r current →
      ReadsAvoid target info r index operands current →
      Clear r (readOperands target info index operands current).2 ∧
        ∀ n : Nat, (readOperands target info index operands current).1[n]? =
          some (.reg (.phys r)) → operands[n]? = some (.reg (.phys r)) := by
  induction operands with
  | nil => exact fun index current clear _ => ⟨clear, by simp [readOperands]⟩
  | cons operand operands ih =>
    intro index current clear avoid
    obtain ⟨headClear, headKept⟩ := readOperand_clear target info clear avoid.1
    obtain ⟨tailClear, tailKept⟩ := ih (index + 1) _ headClear avoid.2
    refine ⟨tailClear, ?_⟩
    intro n found
    cases n with
    | zero =>
      have head : (readOperand target info index operand current).1 = .reg (.phys r) := by
        simpa [readOperands] using found
      simpa using headKept head
    | succ n => exact tailKept n (by simpa [readOperands] using found)

/-- The converse for reads: if nothing inserted names `r`, every search ended
elsewhere. -/
theorem readsAvoid_of_unnamed (operands : List MOperand) :
    ∀ (index : Nat) (current : InstState Op),
      (∀ extra ∈ (readOperands target info index operands current).2.inserted, ¬Names r extra) →
      ReadsAvoid target info r index operands current := by
  induction operands with
  | nil => exact fun index current _ => trivial
  | cons operand operands ih =>
    intro index current unnamed
    refine ⟨?_, ih (index + 1) _ unnamed⟩
    intro vreg isVreg notWriteOnly unbound
    apply searchResult_ne_iff.mp
    intro taken
    subst isVreg
    obtain ⟨extra, member, names⟩ := readOperand_names target info notWriteOnly unbound taken
    have later := (readOperands_inserted_extends target info operands (index + 1) _).subset member
    exact unnamed extra later names

end

variable {operands : List MOperand}

section

variable (target : Target Op) (info : RegAllocOpcodeInfo)
include target info

/-- A read leaves a virtual operand behind only where it changed nothing. -/
theorem readOperands_head_vreg {vreg : Nat}
    (head : (readOperands target info index operands current).1.head? = some (.reg (.vreg vreg))) :
    operands.head? = some (.reg (.vreg vreg)) := by
  cases operands with
  | nil => simp [readOperands] at head
  | cons operand operands =>
    have result : (readOperand target info index operand current).1 = .reg (.vreg vreg) := by
      simpa [readOperands] using head
    rcases readOperand_cases target info index operand current with
      same | ⟨_, phys, _, _, equality⟩ | ⟨other, isVreg, notWriteOnly, unbound⟩
    · rw [same] at result
      simpa using result
    · simp [equality] at result
    · subst isVreg
      rw [readOperand_reload target info notWriteOnly unbound] at result
      simp at result

theorem readOperands_head_phys (index : Nat) (head : operands.head? = some (.reg (.phys r)))
    (current : InstState Op) :
    ∃ rest, (readOperands target info index operands current).1 = .reg (.phys r) :: rest := by
  cases operands with
  | nil => simp at head
  | cons operand operands =>
    have isPhys : operand = .reg (.phys r) := by simpa using head
    subst isPhys
    exact ⟨_, rfl⟩

theorem readOperand_coherent (index : Nat) (operand : MOperand)
    (coherent : current.state.Coherent) :
    (readOperand target info index operand current).2.state.Coherent := by
  rcases readOperand_cases target info index operand current with
    same | ⟨_, phys, _, _, result⟩ | ⟨vreg, isVreg, notWriteOnly, unbound⟩
  · rw [same]
    exact coherent
  · rw [result]
    exact coherent
  · subst isVreg
    rw [readOperand_reload target info notWriteOnly unbound]
    exact InstState.insertMem_coherent (InstState.allocate_coherent target coherent unbound) _ _ _

theorem readOperands_coherent (operands : List MOperand) :
    ∀ (index : Nat) (current : InstState Op), current.state.Coherent →
      (readOperands target info index operands current).2.state.Coherent := by
  induction operands with
  | nil => exact fun index current coherent => coherent
  | cons operand operands ih =>
    intro index current coherent
    exact ih (index + 1) _ (readOperand_coherent target info index operand coherent)

end

/-- If operand 0 needs a register to be written to, its order has enough in front of
`r`. -/
def DefAvoids (target : Target Op) (r : Nat) (operands : List MOperand)
    (current : InstState Op) : Prop :=
  ∀ vreg, operands.head? = some (.reg (.vreg vreg)) →
    current.state.vregToPhys.lookup vreg = none →
    StopsBefore target.regs (current.function.vregClass vreg) r current

section

variable (target : Target Op)
include target

theorem evictPhys_clear (clear : Clear r current) (phys : Nat) :
    Clear r (current.evictPhys target phys) := by
  refine ⟨InstState.evictPhys_coherent target clear.coherent phys,
    InstState.evictPhys_keeps_free target clear.free phys, ?_⟩
  intro extra member names
  obtain ⟨spills, inserted, named⟩ := InstState.evictPhys_inserted target current phys
  rw [inserted] at member
  rcases mem_append.mp member with old | spill
  · exact clear.unnamed extra old names
  · have same := named extra spill r names
    subst same
    rw [InstState.evictPhys_free target clear.free] at inserted
    have empty : spills = [] := by simpa using inserted
    simp [empty] at spill

theorem clobberForCall_clear (clear : Clear r current) :
    Clear r (clobberForCall target current) := by
  unfold clobberForCall
  generalize (target.visitOrder current.state.physToVreg.keys).filter
    (fun phys => !target.regs.isCalleeSaved phys) = clobbered
  induction clobbered generalizing current with
  | nil => exact clear
  | cons phys clobbered ih => exact ih (evictPhys_clear target clear phys)

theorem clobberForCall_coherent (coherent : current.state.Coherent) :
    (clobberForCall target current).state.Coherent := by
  unfold clobberForCall
  generalize (target.visitOrder current.state.physToVreg.keys).filter
    (fun phys => !target.regs.isCalleeSaved phys) = clobbered
  induction clobbered generalizing current with
  | nil => exact coherent
  | cons phys clobbered ih =>
    exact ih (InstState.evictPhys_coherent target coherent phys)

theorem evictPhys_inserted_extends (current : InstState Op) (phys : Nat) :
    current.inserted <+: (current.evictPhys target phys).inserted := by
  obtain ⟨spills, inserted, _⟩ := InstState.evictPhys_inserted target current phys
  rw [inserted]
  exact prefix_append _ _

theorem clobberForCall_inserted_extends (current : InstState Op) :
    current.inserted <+: (clobberForCall target current).inserted := by
  unfold clobberForCall
  generalize (target.visitOrder current.state.physToVreg.keys).filter
    (fun phys => !target.regs.isCalleeSaved phys) = clobbered
  induction clobbered generalizing current with
  | nil => exact prefix_refl _
  | cons phys clobbered ih =>
    exact (evictPhys_inserted_extends target current phys).trans (ih _)

end

section

variable (target : Target Op) (wasVirtual : Bool)
include target wasVirtual

theorem defineOperand0_cases (operands : List MOperand) (current : InstState Op) :
    (∃ vreg phys rest, operands = .reg (.vreg vreg) :: rest ∧
        current.state.vregToPhys.lookup vreg = some phys ∧
        defineOperand0 target wasVirtual operands current = (.reg (.phys phys) :: rest, current)) ∨
      (∃ vreg rest, operands = .reg (.vreg vreg) :: rest ∧
        current.state.vregToPhys.lookup vreg = none ∧
        defineOperand0 target wasVirtual operands current =
          (.reg (.phys (current.searchResult target vreg)) :: rest,
            (current.allocate target vreg).2)) ∨
      (∃ phys rest, operands = .reg (.phys phys) :: rest ∧
        wasVirtual = false ∧
        defineOperand0 target wasVirtual operands current =
          (operands, current.evictPhys target phys)) ∨
      defineOperand0 target wasVirtual operands current = (operands, current) := by
  cases operands with
  | nil => exact .inr (.inr (.inr rfl))
  | cons operand rest =>
    cases operand with
    | reg register =>
      cases register with
      | vreg vreg =>
        cases bound : current.state.vregToPhys.lookup vreg with
        | some phys =>
          exact .inl ⟨vreg, phys, rest, rfl, bound, by simp [defineOperand0, bound]⟩
        | none =>
          refine .inr (.inl ⟨vreg, rest, rfl, bound, ?_⟩)
          rw [← InstState.allocate_fst]
          simp [defineOperand0, bound]
      | phys phys =>
        cases wasVirtual with
        | true => exact .inr (.inr (.inr rfl))
        | false => exact .inr (.inr (.inl ⟨phys, rest, rfl, rfl, rfl⟩))
    | imm _ | frame _ _ | symbol _ _ _ | label _ => exact .inr (.inr (.inr rfl))

theorem defineOperand0_coherent (operands : List MOperand) (coherent : current.state.Coherent) :
    (defineOperand0 target wasVirtual operands current).2.state.Coherent := by
  rcases defineOperand0_cases target wasVirtual operands current with
    ⟨vreg, phys, rest, _, _, result⟩ | ⟨vreg, rest, _, unbound, result⟩ |
      ⟨phys, rest, _, _, result⟩ | result
  · rw [result]
    exact coherent
  · rw [result]
    exact InstState.allocate_coherent target coherent unbound
  · rw [result]
    exact InstState.evictPhys_coherent target coherent phys
  · rw [result]
    exact coherent

/-- Whatever register the definition takes, no inserted store names `r`. -/
theorem defineOperand0_unnamed (operands : List MOperand) (clear : Clear r current) :
    ∀ extra ∈ (defineOperand0 target wasVirtual operands current).2.inserted, ¬Names r extra := by
  rcases defineOperand0_cases target wasVirtual operands current with
    ⟨vreg, phys, rest, _, _, result⟩ | ⟨vreg, rest, _, unbound, result⟩ |
      ⟨phys, rest, _, _, result⟩ | result
  · rw [result]
    exact clear.unnamed
  · rw [result]
    obtain ⟨spills, inserted, spillsUnnamed⟩ := InstState.allocate_inserted target vreg current
    intro extra member
    rw [inserted] at member
    rcases mem_append.mp member with old | spill
    · exact clear.unnamed extra old
    · exact spillsUnnamed extra spill r clear.free
  · rw [result]
    exact (evictPhys_clear target clear phys).unnamed
  · rw [result]
    exact clear.unnamed

theorem defineOperand0_inserted_extends (operands : List MOperand) (current : InstState Op) :
    current.inserted <+: (defineOperand0 target wasVirtual operands current).2.inserted := by
  rcases defineOperand0_cases target wasVirtual operands current with
    ⟨vreg, phys, rest, _, _, result⟩ | ⟨vreg, rest, _, unbound, result⟩ |
      ⟨phys, rest, _, _, result⟩ | result
  · simp only [result, prefix_refl]
  · rw [result]
    obtain ⟨spills, inserted, _⟩ := InstState.allocate_inserted target vreg current
    rw [inserted]
    exact prefix_append _ _
  · rw [result]
    exact evictPhys_inserted_extends target current phys
  · simp only [result, prefix_refl]

/-- A definition that avoids `r` leaves it free and puts it into no operand
that did not name it. -/
theorem defineOperand0_clear (clear : Clear r current)
    (avoids : DefAvoids target r operands current) :
    Clear r (defineOperand0 target wasVirtual operands current).2 ∧
      ∀ n : Nat,
        (defineOperand0 target wasVirtual operands current).1[n]? =
          some (.reg (.phys r)) → operands[n]? = some (.reg (.phys r)) := by
  have unnamed := defineOperand0_unnamed target wasVirtual operands clear
  have coherent := defineOperand0_coherent target wasVirtual operands clear.coherent
  rcases defineOperand0_cases target wasVirtual operands current with
    ⟨vreg, phys, rest, isVreg, bound, result⟩ |
      ⟨vreg, rest, isVreg, unbound, result⟩ |
      ⟨phys, rest, _, _, result⟩ | result
  · rw [result]
    refine ⟨clear, ?_⟩
    intro n found
    have different : phys ≠ r := by
      intro same
      have held := (clear.coherent vreg phys).mp bound
      rw [same, clear.free] at held
      cases held
    cases n with
    | zero => exact absurd (by simpa using found) different
    | succ n => simpa [isVreg] using found
  · have different := searchResult_ne_iff.mpr (avoids vreg (by simp [isVreg]) unbound)
    rw [result] at unnamed coherent ⊢
    refine ⟨⟨coherent, InstState.allocate_keeps_free target clear.free different, unnamed⟩, ?_⟩
    intro n found
    cases n with
    | zero => exact absurd (by simpa using found) different
    | succ n => simpa [isVreg] using found
  · rw [result]
    exact ⟨evictPhys_clear target clear phys, fun n found => found⟩
  · rw [result]
    exact ⟨clear, fun n found => found⟩

/-- The converse for the definition: an operand that takes `r` shows. -/
theorem defAvoids_of_kept
    (kept : (defineOperand0 target wasVirtual operands current).1.head? ≠
      some (.reg (.phys r)) ∨ ∀ vreg, operands.head? ≠ some (.reg (.vreg vreg))) :
    DefAvoids target r operands current := by
  intro vreg head unbound
  apply searchResult_ne_iff.mp
  intro taken
  cases operands with
  | nil => simp at head
  | cons operand rest =>
    have isVreg : operand = .reg (.vreg vreg) := by simpa using head
    subst isVreg
    rcases kept with kept | notVreg
    · apply kept
      rw [← taken, ← InstState.allocate_fst]
      simp [defineOperand0, unbound]
    · exact notVreg vreg head

end

/-- The walk's state after the reads of an instruction. -/
def afterReads (target : Target Op) (inst : MInst Op)
    (function : MFunction Op) (state : AllocState) :
    List MOperand × InstState Op :=
  readOperands target (target.opcodeInfo inst.opcode) 0 inst.operands
    { function := function
      state := state
      pinned := explicitRegs inst.operands }

/-- The walk's state in front of the definition. -/
def beforeDef (target : Target Op) (inst : MInst Op)
    (function : MFunction Op) (state : AllocState) : InstState Op :=
  if (target.opcodeInfo inst.opcode).isCall then
    clobberForCall target (afterReads target inst function state).2
  else
    (afterReads target inst function state).2

theorem rewriteInst_eq (target : Target Op) (inst : MInst Op)
    (function : MFunction Op) (state : AllocState) :
    rewriteInst target inst function state =
      if (target.opcodeInfo inst.opcode).definesOperand0 then
        let defined := defineOperand0 target (op0WasVirtual inst.operands)
          (afterReads target inst function state).1
          (beforeDef target inst function state)
        ({ inst with operands := defined.1 }, defined.2)
      else
        ({ inst with operands := (afterReads target inst function state).1 },
          beforeDef target inst function state) := by
  unfold rewriteInst beforeDef afterReads
  cases defines : (target.opcodeInfo inst.opcode).definesOperand0 <;> simp [defines]

/-- The searches of one instruction, all from the states the walk is in when
it makes them. -/
structure InstAvoids (target : Target Op) (r : Nat) (inst : MInst Op)
    (function : MFunction Op) (state : AllocState) : Prop where
  reads : ReadsAvoid target (target.opcodeInfo inst.opcode) r 0 inst.operands
    { function := function
      state := state
      pinned := explicitRegs inst.operands }
  define : (target.opcodeInfo inst.opcode).definesOperand0 = true →
    DefAvoids target r (afterReads target inst function state).1
      (beforeDef target inst function state)

/-- The inserted instructions do not name `r`, and the rewritten instruction
names it only where the selected one did. -/
structure LeavesAlone (r : Nat) (inst rewritten : MInst Op)
    (inserted : List (MInst Op)) : Prop where
  inserted : ∀ extra ∈ inserted, ¬Names r extra
  operands : ∀ n : Nat, rewritten.operands[n]? = some (.reg (.phys r)) →
    inst.operands[n]? = some (.reg (.phys r))

variable {state : AllocState}

theorem start_clear (coherent : state.Coherent) (free : state.physToVreg.lookup r = none)
    (function : MFunction Op) (pinned : List Nat) :
    Clear r { function := function, state := state, pinned := pinned } :=
  ⟨coherent, free, by simp⟩

variable {inst : MInst Op} {function : MFunction Op}

section

variable (target : Target Op)
include target

theorem rewriteInst_clear (coherent : state.Coherent) (free : state.physToVreg.lookup r = none)
    (avoids : InstAvoids target r inst function state) :
    Clear r (rewriteInst target inst function state).2 ∧
      LeavesAlone r inst (rewriteInst target inst function state).1
        (rewriteInst target inst function state).2.inserted := by
  obtain ⟨readsClear, readsKept⟩ := readOperands_clear target
    (target.opcodeInfo inst.opcode) inst.operands 0 _
    (start_clear coherent free function (explicitRegs inst.operands))
    avoids.reads
  have beforeClear : Clear r (beforeDef target inst function state) := by
    unfold beforeDef
    split
    · exact clobberForCall_clear target readsClear
    · exact readsClear
  rw [rewriteInst_eq]
  cases defines : (target.opcodeInfo inst.opcode).definesOperand0 with
  | false => exact ⟨beforeClear, beforeClear.unnamed, readsKept⟩
  | true =>
    obtain ⟨defClear, defKept⟩ := defineOperand0_clear target
      (op0WasVirtual inst.operands) beforeClear (avoids.define defines)
    exact ⟨defClear, defClear.unnamed, fun n found => readsKept n (defKept n found)⟩

/-- For the consumer only the reads have to avoid `r`: its own definition and
the spills of a call come after the last use of the register's value. -/
theorem consumer_unnamed (coherent : state.Coherent) (free : state.physToVreg.lookup r = none)
    (avoids : ReadsAvoid target (target.opcodeInfo inst.opcode) r 0
      inst.operands
      { function := function
        state := state
        pinned := explicitRegs inst.operands }) :
    ∀ extra ∈ (rewriteInst target inst function state).2.inserted, ¬Names r extra := by
  have readsClear := (readOperands_clear target
    (target.opcodeInfo inst.opcode) inst.operands 0 _
    (start_clear coherent free function (explicitRegs inst.operands))
    avoids).1
  have beforeClear : Clear r (beforeDef target inst function state) := by
    unfold beforeDef
    split
    · exact clobberForCall_clear target readsClear
    · exact readsClear
  rw [rewriteInst_eq]
  cases (target.opcodeInfo inst.opcode).definesOperand0 with
  | false => exact beforeClear.unnamed
  | true => exact defineOperand0_unnamed target _ _ beforeClear

theorem beforeDef_inserted_extends (inst : MInst Op) (function : MFunction Op)
    (state : AllocState) :
    (afterReads target inst function state).2.inserted <+:
      (beforeDef target inst function state).inserted := by
  unfold beforeDef
  split
  · exact clobberForCall_inserted_extends target _
  · exact prefix_refl _

theorem rewriteInst_inserted_extends (inst : MInst Op) (function : MFunction Op)
    (state : AllocState) :
    (afterReads target inst function state).2.inserted <+:
      (rewriteInst target inst function state).2.inserted := by
  rw [rewriteInst_eq]
  have before := beforeDef_inserted_extends target inst function state
  cases (target.opcodeInfo inst.opcode).definesOperand0 with
  | false => exact before
  | true => exact before.trans (defineOperand0_inserted_extends target _ _ _)

theorem readsAvoid_of_rewriteInst
    (unnamed : ∀ extra ∈ (rewriteInst target inst function state).2.inserted, ¬Names r extra) :
    ReadsAvoid target (target.opcodeInfo inst.opcode) r 0 inst.operands
      { function := function
        state := state
        pinned := explicitRegs inst.operands } := by
  apply readsAvoid_of_unnamed
  intro extra member
  exact unnamed extra ((rewriteInst_inserted_extends target inst function state).subset member)

theorem instAvoids_of_leavesAlone
    (alone : LeavesAlone r inst (rewriteInst target inst function state).1
      (rewriteInst target inst function state).2.inserted) :
    InstAvoids target r inst function state := by
  refine ⟨readsAvoid_of_rewriteInst target alone.inserted, ?_⟩
  intro defines
  have kept := alone.operands 0
  rw [rewriteInst_eq] at kept
  simp only [defines, if_true, ← head?_eq_getElem?] at kept
  intro vreg head unbound
  -- the selected operand 0 is virtual, so the rewritten one may not be `r`
  have selected := readOperands_head_vreg target _ head
  have different : (defineOperand0 target (op0WasVirtual inst.operands)
      (afterReads target inst function state).1
      (beforeDef target inst function state)).1.head? ≠
      some (.reg (.phys r)) := by
    intro taken
    rw [kept taken] at selected
    cases selected
  exact defAvoids_of_kept target _ (.inl different) vreg head unbound

theorem beforeDef_coherent (inst : MInst Op) (function : MFunction Op) (coherent : state.Coherent) :
    (beforeDef target inst function state).state.Coherent := by
  have reads : (afterReads target inst function state).2.state.Coherent :=
    readOperands_coherent target _ inst.operands 0 _ coherent
  unfold beforeDef
  split
  · exact clobberForCall_coherent target reads
  · exact reads

theorem rewriteInst_coherent (inst : MInst Op) (function : MFunction Op)
    (coherent : state.Coherent) :
    (rewriteInst target inst function state).2.state.Coherent := by
  have before := beforeDef_coherent target inst function coherent
  rw [rewriteInst_eq]
  cases (target.opcodeInfo inst.opcode).definesOperand0 with
  | false => exact before
  | true => exact defineOperand0_coherent target _ _ before

end

/-- `inst` writes physical register `r` as its operand 0. -/
def WritesExplicitly (target : Target Op) (r : Nat) (inst : MInst Op) :
    Prop :=
  (target.opcodeInfo inst.opcode).definesOperand0 = true ∧
    inst.operands.head? = some (.reg (.phys r))

/-- `inst` reads physical register `r` in one of its operands. -/
def ReadsExplicitly (target : Target Op) (r : Nat) (inst : MInst Op) :
    Prop :=
  ∃ n : Nat, inst.operands[n]? = some (.reg (.phys r)) ∧
    isWriteOnlyDef (target.opcodeInfo inst.opcode) n = false

/-- An explicit write evicts whatever the register held. -/
theorem rewriteInst_frees (target : Target Op) (function : MFunction Op) (coherent : state.Coherent)
    (writes : WritesExplicitly target r inst) :
    (rewriteInst target inst function state).2.state.physToVreg.lookup r = none := by
  obtain ⟨defines, head⟩ := writes
  obtain ⟨rest, operands⟩ := readOperands_head_phys target
    (target.opcodeInfo inst.opcode) 0 head
    { function := function
      state := state
      pinned := explicitRegs inst.operands }
  have notVirtual : op0WasVirtual inst.operands = false := by
    cases shape : inst.operands with
    | nil => rfl
    | cons operand _ =>
      rw [shape] at head
      have isPhys : operand = .reg (.phys r) := by simpa using head
      subst isPhys
      rfl
  have before := beforeDef_coherent target inst function coherent
  rw [rewriteInst_eq]
  simp only [defines, if_true, afterReads, operands, notVirtual,
    defineOperand0, Bool.false_eq_true, if_false]
  exact InstState.evictPhys_frees target before r

/-- The walk's state in front of instruction `k` of a block. -/
def stateBefore (target : Target Op) (function : MFunction Op)
    (insts : List (MInst Op)) (k : Nat) : BlockState Op :=
  (insts.zipIdx.take k).foldl (stepInst target (lastUse insts)) { function := function }

/-- Instruction `k` as the walk rewrites it, with what it inserts before. -/
def rewriteAt (target : Target Op) (function : MFunction Op)
    (insts : List (MInst Op)) (k : Nat) (inst : MInst Op) :
    MInst Op × InstState Op :=
  rewriteInst target inst (stateBefore target function insts k).function
    (stateBefore target function insts k).state

theorem allocBlock_eq_stateBefore (target : Target Op)
    (function : MFunction Op) (block : MBlock Op) :
    allocBlock target function block =
      stateBefore target function block.insts block.insts.length := by
  unfold allocBlock stateBefore
  rw [take_of_length_le (by simp)]

theorem stateBefore_succ (target : Target Op) (function : MFunction Op) {insts : List (MInst Op)}
    {k : Nat} (found : insts[k]? = some inst) :
    stateBefore target function insts (k + 1) =
      stepInst target (lastUse insts) (stateBefore target function insts k) (inst, k) := by
  have indexed : insts.zipIdx[k]? = some (inst, k) := by
    simp [getElem?_zipIdx, found]
  simp [stateBefore, take_add_one, indexed]

theorem releaseLastUses_coherent {last : RegMap} (coherent : state.Coherent) :
    (releaseLastUses last index inst state).Coherent := by
  unfold releaseLastUses
  induction virtualRegs inst.operands generalizing state with
  | nil => exact coherent
  | cons vreg vregs ih =>
    apply ih
    by_cases final : last.lookup vreg = some index
    · simpa [final] using coherent.unassign vreg
    · simpa [final] using coherent

theorem releaseLastUses_keeps_free {last : RegMap} (free : state.physToVreg.lookup r = none) :
    (releaseLastUses last index inst state).physToVreg.lookup r = none := by
  unfold releaseLastUses
  induction virtualRegs inst.operands generalizing state with
  | nil => exact free
  | cons vreg vregs ih =>
    apply ih
    by_cases final : last.lookup vreg = some index
    · simpa [final] using AllocState.unassign_physToVreg_none free vreg
    · simpa [final] using free

theorem stateBefore_coherent (target : Target Op) (function : MFunction Op)
    (insts : List (MInst Op)) (k : Nat) :
    (stateBefore target function insts k).state.Coherent := by
  induction k with
  | zero => exact AllocState.Coherent.empty
  | succ k ih =>
    cases found : insts[k]? with
    | some inst =>
      rw [stateBefore_succ target function found]
      exact releaseLastUses_coherent (rewriteInst_coherent target inst _ ih)
    | none =>
      have short : insts.length ≤ k := by simpa using found
      have same : stateBefore target function insts (k + 1) =
          stateBefore target function insts k := by
        unfold stateBefore
        rw [take_of_length_le (by simp; omega), take_of_length_le (by simpa using short)]
      rw [same]
      exact ih

/-- Instruction `i` writes `r` explicitly, instruction `j` reads it explicitly
or is a call, and nothing in between writes `r` explicitly or calls. -/
structure SetUp (target : Target Op) (insts : List (MInst Op))
    (r i j : Nat) : Prop where
  order : i < j
  write : ∃ inst, insts[i]? = some inst ∧ WritesExplicitly target r inst
  consumer : ∃ inst, insts[j]? = some inst ∧
    (ReadsExplicitly target r inst ∨ (target.opcodeInfo inst.opcode).isCall = true)
  between : ∀ k inst, i < k → k < j → insts[k]? = some inst →
    ¬WritesExplicitly target r inst ∧ (target.opcodeInfo inst.opcode).isCall = false

/-- No virtual register is put into `r` between the write and the consumer,
and no emitted instruction there writes `r`. -/
structure KeepsIntact (target : Target Op) (function : MFunction Op)
    (insts : List (MInst Op)) (r i j : Nat) : Prop where
  between : ∀ k inst, i < k → k < j → insts[k]? = some inst →
    LeavesAlone r inst (rewriteAt target function insts k inst).1
      (rewriteAt target function insts k inst).2.inserted ∧
    ∀ emitted ∈ (rewriteAt target function insts k inst).2.inserted ++
        [(rewriteAt target function insts k inst).1],
      ¬WritesExplicitly target r emitted
  consumer : ∀ inst, insts[j]? = some inst →
    ∀ emitted ∈ (rewriteAt target function insts j inst).2.inserted,
      ¬Names r emitted ∧ ¬WritesExplicitly target r emitted

theorem stateBefore_free (target : Target Op) (function : MFunction Op) {insts : List (MInst Op)}
    {i j : Nat} (setUp : SetUp target insts r i j)
    (avoids : ∀ k inst, i < k → k < j → insts[k]? = some inst →
      InstAvoids target r inst (stateBefore target function insts k).function
        (stateBefore target function insts k).state) :
    ∀ k, i < k → k ≤ j →
      (stateBefore target function insts k).state.physToVreg.lookup r = none := by
  intro k
  induction k with
  | zero => intro after; omega
  | succ k ih =>
    intro after upTo
    have coherent := stateBefore_coherent target function insts k
    by_cases first : k = i
    · subst first
      obtain ⟨inst, found, writes⟩ := setUp.write
      rw [stateBefore_succ target function found]
      exact releaseLastUses_keeps_free (rewriteInst_frees target _ coherent writes)
    · have inside : i < k := by omega
      obtain ⟨consumer, consumerFound, _⟩ := setUp.consumer
      have inRange : k < insts.length := by
        have := (List.getElem?_eq_some_iff.mp consumerFound).1
        omega
      have found : insts[k]? = some insts[k] := getElem?_eq_getElem inRange
      rw [stateBefore_succ target function found]
      exact releaseLastUses_keeps_free
        (rewriteInst_clear target coherent (ih inside (by omega))
          (avoids k insts[k] inside (by omega) found)).1.free

theorem not_writes_of_not_names {target : Target Op} (unnamed : ¬Names r inst) :
    ¬WritesExplicitly target r inst := by
  intro writes
  exact unnamed (mem_of_mem_head? (by simpa using writes.2))

theorem rewriteInst_opcode (target : Target Op) (inst : MInst Op)
    (function : MFunction Op) (state : AllocState) :
    (rewriteInst target inst function state).1.opcode = inst.opcode := by
  rw [rewriteInst_eq]
  cases (target.opcodeInfo inst.opcode).definesOperand0 <;> rfl

theorem LeavesAlone.not_writes {target : Target Op}
    (alone : LeavesAlone r inst (rewriteInst target inst function state).1
      (rewriteInst target inst function state).2.inserted)
    (silent : ¬WritesExplicitly target r inst) :
    ∀ emitted ∈ (rewriteInst target inst function state).2.inserted ++
        [(rewriteInst target inst function state).1],
      ¬WritesExplicitly target r emitted := by
  intro emitted member
  rcases mem_append.mp member with inserted | rewritten
  · exact not_writes_of_not_names (alone.inserted emitted inserted)
  · rw [mem_singleton.mp rewritten]
    intro writes
    apply silent
    refine ⟨by simpa [rewriteInst_opcode] using writes.1, ?_⟩
    have kept := alone.operands 0
    rw [← head?_eq_getElem?, ← head?_eq_getElem?] at kept
    exact kept writes.2

end Aburi.Backend.FastRegAllocator
