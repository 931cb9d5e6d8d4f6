import Mathlib.Data.List.TakeWhile
import Aburi.Backend.FastArgumentSetup

/-!
# 128-bit values in callee-saved registers

A 128-bit value is in a callee-saved register only since a register search that came
there, and a search does so only where every caller-saved register is named or taken
and the first one that is not named is callee-saved.
-/

namespace Aburi.Backend.FastRegAllocator

open List Function Option InstState

variable {Op : Type}

/-- For each virtual register the state in which its last register search began. -/
abbrev Searches (Op : Type) : Type := ℕ → Option (InstState Op)

/-- A virtual register that has no register yet is searched one for. -/
def noteSearch (vreg : ℕ) (current : InstState Op) (searches : Searches Op) : Searches Op :=
  if current.state.vregToPhys.lookup vreg = none then update searches vreg (some current)
  else searches

section Noted

variable (target : Target Op)

def noteRead (info : RegAllocOpcodeInfo) (index : ℕ) (operand : MOperand)
    (current : InstState Op) (searches : Searches Op) : Searches Op :=
  match operand with
  | .reg (.vreg vreg) =>
    if isWriteOnlyDef info index then searches else noteSearch vreg current searches
  | _ => searches

def noteReads (info : RegAllocOpcodeInfo) :
    ℕ → List MOperand → InstState Op → Searches Op → Searches Op
  | _, [], _, searches => searches
  | index, operand :: operands, current, searches =>
    noteReads info (index + 1) operands (readOperand target info index operand current).2
      (noteRead info index operand current searches)

def noteDef (definesOperand0 : Bool) (operands : List MOperand) (current : InstState Op)
    (searches : Searches Op) : Searches Op :=
  match definesOperand0, operands with
  | true, .reg (.vreg vreg) :: _ => noteSearch vreg current searches
  | _, _ => searches

variable (function : MFunction Op) (insts : List (MInst Op))

/-- The searches up to the reads of an instruction in front of which there were some. -/
def searchesAt (inst : MInst Op) (k : ℕ) (searches : Searches Op) : Searches Op :=
  noteReads target (target.opcodeInfo inst.opcode) 0 inst.operands
    { function := (stateBefore target function insts k).function
      state := (stateBefore target function insts k).state
      pinned := explicitRegs inst.operands } searches

def searchesBefore : ℕ → Searches Op
  | 0 => fun _ => none
  | k + 1 =>
    match insts[k]? with
    | none => searchesBefore k
    | some inst =>
      let before := stateBefore target function insts k
      noteDef (target.opcodeInfo inst.opcode).definesOperand0
        (afterReads target inst before.function before.state).1
        (beforeDef target inst before.function before.state)
        (searchesAt target function insts inst k (searchesBefore k))

end Noted

/-- No caller-saved register is left for a search, and the first register that is named
by no operand so far is callee-saved. -/
structure ComesToSaved (regs : TargetRegInfo) (search : InstState Op) : Prop where
  taken : ∀ phys ∈ regs.fprOrder, regs.isCalleeSaved phys = false → phys ∉ search.pinned →
    (search.state.physToVreg.lookup phys).isSome = true
  saved : ∃ phys, regs.fprOrder.find? (fun phys => !search.isPinned phys) = some phys ∧
    regs.isCalleeSaved phys = true

/-- A call finds a virtual register in the register of a search that came to a
callee-saved one. -/
def SavedSince (target : Target Op) (function : MFunction Op) (insts : List (MInst Op))
    (vreg c : ℕ) : Prop :=
  ∃ call search, insts[c]? = some call ∧ (target.opcodeInfo call.opcode).isCall = true ∧
    searchesAt target function insts call c (searchesBefore target function insts c) vreg =
      some search ∧
    ((afterReads target call (stateBefore target function insts c).function
      (stateBefore target function insts c).state).2.state.vregToPhys.lookup vreg).isSome = true ∧
    ComesToSaved target.regs search

/-- No 128-bit value is so at a call when it is read later and not written in between. -/
def NoWideSaved (target : Target Op) (function : MFunction Op) (insts : List (MInst Op)) : Prop :=
  ∀ k inst index vreg j c, insts[k]? = some inst → ReadsVreg target inst index vreg →
    function.vregClass vreg = .fpr128 → lastDef target insts vreg k = some j →
    j < c → c < k → ¬ SavedSince target function insts vreg c

/-- An instruction that names a 128-bit register names no more of its order than
caller-saved registers stand in front of the first callee-saved one. -/
def NamesFewWide (target : Target Op) (function : MFunction Op) (insts : List (MInst Op)) :
    Prop :=
  ∀ inst ∈ insts, ∀ vreg ∈ virtualRegs inst.operands, function.vregClass vreg = .fpr128 →
    (namedInOrder function .fpr128 inst).card ≤
      (target.regs.fprOrder.takeWhile fun phys => !target.regs.isCalleeSaved phys).length

variable {target : Target Op} {access : Op → Option Access} {function : MFunction Op}
  {insts : List (MInst Op)} {current next : InstState Op} {searches : Searches Op} {vreg k : ℕ}

theorem comesToSaved_iff {search : InstState Op}
    (wide : search.function.vregClass vreg = .fpr128)
    (room : ∃ phys ∈ target.regs.fprOrder, phys ∉ search.pinned) :
    ComesToSaved target.regs search ↔
      target.regs.isCalleeSaved (search.searchResult target vreg) = true := by
  have tried : target.order .fpr128 = target.regs.fprOrder := rfl
  rw [searchResult, wide, tried]
  cases free : target.regs.fprOrder.find? (search.isFree target .fpr128) with
  | some found =>
    have vacant := isFree_iff.mp (List.find?_some free)
    have lowered := vacant.lowered rfl
    rw [Option.some_or, Option.getD_some, lowered]
    constructor
    · intro comes
      have isHeld := comes.taken found (mem_of_find?_eq_some free) lowered vacant.unnamed
      rw [vacant.empty] at isHeld
      cases isHeld
    · exact fun saved => absurd saved Bool.false_ne_true
  | none =>
    have occupied : ∀ phys ∈ target.regs.fprOrder, target.regs.isCalleeSaved phys = false →
        phys ∉ search.pinned → (search.state.physToVreg.lookup phys).isSome = true := by
      intro phys inOrder lowered unnamed
      by_contra empty
      apply find?_eq_none.mp free phys inOrder
      exact isFree_iff.mpr ⟨unnamed, by simpa using empty, fun _ => lowered⟩
    rw [Option.none_or]
    cases unpinned : target.regs.fprOrder.find? (fun phys => !search.isPinned phys) with
    | some found =>
      rw [Option.getD_some]
      constructor
      · rintro ⟨-, phys, isFirst, saved⟩
        rw [unpinned] at isFirst
        exact Option.some.inj isFirst ▸ saved
      · exact fun saved => ⟨occupied, found, unpinned, saved⟩
    | none =>
      obtain ⟨phys, inOrder, unnamed⟩ := room
      have named := find?_eq_none.mp unpinned phys inOrder
      simp [isPinned, unnamed] at named

/-- What is true of the state a search began in. -/
structure SearchFacts (target : Target Op) (function : MFunction Op) (insts : List (MInst Op))
    (vreg : ℕ) (search : InstState Op) : Prop where
  placed : WellPlaced target function search
  unbound : search.state.vregToPhys.lookup vreg = none
  named : ∃ inst ∈ insts, vreg ∈ virtualRegs inst.operands ∧
    Pinning target (virtualRegs inst.operands) search

/-- Every binding comes from the last search for its virtual register. -/
structure Traced (target : Target Op) (function : MFunction Op) (insts : List (MInst Op))
    (searches : Searches Op) (current : InstState Op) : Prop where
  facts : ∀ vreg search, searches vreg = some search →
    SearchFacts target function insts vreg search
  found : ∀ vreg phys, current.state.vregToPhys.lookup vreg = some phys →
    ∃ search, searches vreg = some search ∧ phys = search.searchResult target vreg

theorem Traced.of_unbinding (traced : Traced target function insts searches current)
    (unbinding : ∀ vreg phys, next.state.vregToPhys.lookup vreg = some phys →
      current.state.vregToPhys.lookup vreg = some phys) :
    Traced target function insts searches next :=
  ⟨traced.facts, fun vreg phys bound => traced.found vreg phys (unbinding vreg phys bound)⟩

theorem Traced.search (traced : Traced target function insts searches current)
    (facts : SearchFacts target function insts vreg current)
    (bound : next.state.vregToPhys.lookup vreg = some (current.searchResult target vreg))
    (others : ∀ other phys, other ≠ vreg → next.state.vregToPhys.lookup other = some phys →
      current.state.vregToPhys.lookup other = some phys) :
    Traced target function insts (noteSearch vreg current searches) next := by
  rw [noteSearch, if_pos facts.unbound]
  constructor
  · intro other search noted
    by_cases same : other = vreg
    · subst same
      rw [update_self] at noted
      exact Option.some.inj noted ▸ facts
    · rw [update_of_ne same] at noted
      exact traced.facts other search noted
  · intro other phys isBound
    by_cases same : other = vreg
    · subst same
      rw [bound] at isBound
      exact ⟨current, update_self .., (Option.some.inj isBound).symm⟩
    · rw [update_of_ne same]
      exact traced.found other phys (others other phys same isBound)

section Steps

variable {base : Contents} {values : ℕ → Option (BitVec 128)}
  (spillCode : SpillCode target access function)

/-- A search changes no other binding, except that one may go. -/
theorem Allocated.others {phys : ℕ} (placed : WellPlaced target function current)
    (allocated : Allocated target access function base values current next vreg phys)
    {other otherPhys : ℕ} (different : other ≠ vreg)
    (bound : next.state.vregToPhys.lookup other = some otherPhys) :
    current.state.vregToPhys.lookup other = some otherPhys := by
  have held := (allocated.holding.coherent other otherPhys).mp bound
  have apart : otherPhys ≠ phys := by
    rintro rfl
    have own := (allocated.holding.coherent vreg otherPhys).mp allocated.bound
    exact different (Option.some.inj (held.symm.trans own))
  rw [allocated.holds otherPhys apart] at held
  exact (placed.coherent other otherPhys).mpr held

section Insts

variable {inst : MInst Op} (regular : target.Regular) (member : inst ∈ insts)
  (fits : ∀ cls, (namedInOrder function cls inst).card ≤ (target.order cls).length)
  {info : RegAllocOpcodeInfo}

include spillCode regular member fits in
theorem traced_allocate (holding : Holding target access function base values current)
    (pinning : Pinning target (virtualRegs inst.operands) current)
    (isNamed : vreg ∈ virtualRegs inst.operands)
    (unbound : current.state.vregToPhys.lookup vreg = none)
    (traced : Traced target function insts searches current) :
    Traced target function insts (noteSearch vreg current searches)
      (current.allocate target vreg).2 := by
  have allocated := holding.allocate spillCode unbound
    (pinning.room regular holding.toWellPlaced isNamed unbound (fits _))
  apply traced.search ⟨holding.toWellPlaced, unbound, inst, member, isNamed, pinning⟩
  · rw [← allocate_fst]
    exact allocated.bound
  · exact fun other phys different => allocated.others holding.toWellPlaced different

include spillCode regular member fits in
theorem traced_reads {operands : List MOperand} :
    ∀ (index : ℕ) {current : InstState Op} {searches : Searches Op}, operands ⊆ inst.operands →
      Holding target access function base values current →
      Pinning target (virtualRegs inst.operands) current →
      (∀ offset vreg, operands[offset]? = some (.reg (.vreg vreg)) →
        isWriteOnlyDef info (index + offset) = false → (values vreg).isSome = true) →
      Traced target function insts searches current →
      Traced target function insts (noteReads target info index operands current searches)
        (readOperands target info index operands current).2 := by
  induction operands with
  | nil => exact fun index current searches _ _ _ _ traced => traced
  | cons operand operands ih =>
    intro index current searches subset holding pinning defined traced
    have step : ReadStep target access function base values (virtualRegs inst.operands) current
        (readOperand target info index operand current).2 :=
      (readOperand_step spillCode regular fits holding pinning (subset (.head _))
        fun vreg isVreg reads => defined 0 vreg (by simp [isVreg]) reads).1
    apply ih (index + 1) (fun _ isOperand => subset (.tail _ isOperand)) step.holding step.pinning
      fun offset vreg found reads => defined (offset + 1) vreg found
        (by rwa [Nat.add_comm offset, ← Nat.add_assoc])
    rcases readOperand_cases target info index operand current with
      same | ⟨vreg, phys, isVreg, bound, result⟩ | ⟨vreg, isVreg, notWriteOnly, unbound⟩
    · rw [same]
      have unnoted : noteRead info index operand current searches = searches := by
        unfold noteRead
        split
        case h_1 vreg =>
          -- a read operand never stays virtual
          cases writeOnly : isWriteOnlyDef info index with
          | true => rfl
          | false =>
            have changed := congrArg Prod.fst same
            cases bound : current.state.vregToPhys.lookup vreg with
            | some phys | none => simp [readOperand, writeOnly, bound] at changed
        case h_2 => rfl
      rw [unnoted]
      exact traced
    · have unnoted : noteRead info index operand current searches = searches := by
        subst isVreg
        simp [noteRead, noteSearch, bound]
      rw [unnoted, result]
      exact traced.of_unbinding fun _ _ isBound => isBound
    · subst isVreg
      have isNamed : vreg ∈ virtualRegs inst.operands :=
        mem_virtualRegs (subset (.head _))
      have allocated := traced_allocate spillCode regular member fits holding pinning isNamed
        unbound traced
      rw [readOperand_reload target info notWriteOnly unbound]
      simp only [noteRead, notWriteOnly, Bool.false_eq_true, if_false]
      apply allocated.of_unbinding
      intro other phys isBound
      rwa [makeReload, insertMem_vregToPhys] at isBound

end Insts

end Steps

section Blocks

variable (spillCode : SpillCode target access function) (regular : target.Regular)
  (allocatable : Allocatable target function insts)

include spillCode regular allocatable in
theorem holding_start {inst : MInst Op} (found : insts[k]? = some inst) :
    Holding target access function
        (contentsBefore target access function insts lossy ⟨fun _ => 0, fun _ => 0⟩ k)
        (neededBefore target function insts lossy k)
        { function := (stateBefore target function insts k).function
          state := (stateBefore target function insts k).state
          pinned := explicitRegs inst.operands } ∧
      Pinning target (virtualRegs inst.operands)
        { function := (stateBefore target function insts k).function
          state := (stateBefore target function insts k).state
          pinned := explicitRegs inst.operands } ∧
      ∀ offset vreg, inst.operands[offset]? = some (.reg (.vreg vreg)) →
        isWriteOnlyDef (target.opcodeInfo inst.opcode) (0 + offset) = false →
        (neededBefore target function insts lossy k vreg).isSome = true := by
  have holding := holding_before spillCode regular allocatable lossy
    ⟨fun _ => 0, fun _ => 0⟩ k
  refine ⟨⟨⟨holding.coherent, holding.ordered, holding.slotRange, holding.slotsApart,
    holding.classes, holding.word, holding.objects⟩, holding.located⟩, ⟨?_⟩, ?_⟩
  · intro phys pinned inOrder
    have outside := allocatable.outside inst (mem_of_getElem? found) phys pinned
    exact absurd inOrder (by simp [outside])
  · intro offset vreg isVreg reads
    rw [Nat.zero_add] at reads
    obtain ⟨same, isSome⟩ := neededBefore_of_reads allocatable lossy found ⟨isVreg, reads⟩
    rw [same]
    exact isSome

include spillCode regular allocatable in
theorem traced_afterReads {inst : MInst Op} (found : insts[k]? = some inst)
    (traced : Traced target function insts searches
      (BlockState.walk (stateBefore target function insts k).function
        (stateBefore target function insts k).state)) :
    Traced target function insts (searchesAt target function insts inst k searches)
      (afterReads target inst (stateBefore target function insts k).function
        (stateBefore target function insts k).state).2 := by
  obtain ⟨holding, pinning, defined⟩ := holding_start spillCode regular allocatable found
  have member := mem_of_getElem? found
  exact traced_reads spillCode regular member (allocatable.room inst member) 0
    (List.Subset.refl _) holding pinning defined ⟨traced.facts, traced.found⟩

theorem evictPhys_unbinding {phys other otherPhys : ℕ} (coherent : current.state.Coherent)
    (bound : (current.evictPhys target phys).state.vregToPhys.lookup other = some otherPhys) :
    current.state.vregToPhys.lookup other = some otherPhys := by
  cases held : current.state.physToVreg.lookup phys with
  | none => rwa [evictPhys_free target held] at bound
  | some vreg =>
    rw [evictPhys_held target held] at bound
    have spilled : (current.makeSpill target vreg phys).state.Coherent :=
      insertMem_coherent coherent _ vreg phys
    have isHeld := ((spilled.unassign vreg) other otherPhys).mp bound
    have before := (spilled other otherPhys).mpr (unassign_holds spilled isHeld).1
    rwa [makeSpill, insertMem_vregToPhys] at before

include spillCode regular allocatable in
theorem traced_rewriteInst {inst : MInst Op} (found : insts[k]? = some inst)
    (traced : Traced target function insts (searchesBefore target function insts k)
      (BlockState.walk (stateBefore target function insts k).function
        (stateBefore target function insts k).state)) :
    Traced target function insts (searchesBefore target function insts (k + 1))
      (rewriteAt target function insts k inst).2 := by
  have reads := traced_afterReads spillCode regular allocatable found traced
  obtain ⟨holding, pinning, defined⟩ := holding_start spillCode regular allocatable found
  have member := mem_of_getElem? found
  obtain ⟨step, -⟩ := readOperands_step spillCode regular (allocatable.room inst member) 0
    (List.Subset.refl _) holding pinning defined
  rw [searchesBefore, found, rewriteAt, rewriteInst_eq]
  simp only
  cases defines : (target.opcodeInfo inst.opcode).definesOperand0 with
  | false =>
    simp only [Bool.false_eq_true, if_false, noteDef]
    unfold beforeDef
    split
    · apply reads.of_unbinding
      intro vreg phys bound
      exact ((clobberForCall_step spillCode regular step.holding).2.2 vreg phys).mp bound |>.1
    · exact reads
  | true =>
    have noCall : (target.opcodeInfo inst.opcode).isCall = false := by
      by_contra isCall
      have silent := regular.calls inst.opcode (by simpa using isCall)
      rw [defines] at silent
      cases silent
    have before : beforeDef target inst (stateBefore target function insts k).function
        (stateBefore target function insts k).state =
          (afterReads target inst (stateBefore target function insts k).function
            (stateBefore target function insts k).state).2 := by
      simp [beforeDef, noCall]
    simp only [if_true, before]
    rcases defineOperand0_cases target (op0WasVirtual inst.operands)
        (afterReads target inst (stateBefore target function insts k).function
          (stateBefore target function insts k).state).1
        (afterReads target inst (stateBefore target function insts k).function
          (stateBefore target function insts k).state).2 with
      ⟨vreg, phys, rest, isVreg, bound, result⟩ | ⟨vreg, rest, isVreg, unbound, result⟩ |
        ⟨phys, rest, isPhys, _, result⟩ | result
    · rw [result]
      simp only [isVreg, noteDef, noteSearch, bound]
      exact reads
    · rw [result]
      simp only [isVreg, noteDef]
      have selected := readOperands_head_vreg target _ (congrArg List.head? isVreg)
      have isNamed := mem_virtualRegs (mem_of_mem_head? selected)
      exact traced_allocate spillCode regular member (allocatable.room inst member)
        step.holding step.pinning isNamed unbound reads
    · rw [result]
      simp only [isPhys, noteDef]
      apply reads.of_unbinding
      exact fun vreg phys => evictPhys_unbinding step.holding.coherent
    · rw [result]
      revert result
      generalize (afterReads target inst (stateBefore target function insts k).function
        (stateBefore target function insts k).state).1 = operands
      intro result
      unfold noteDef
      split
      case h_1 vreg rest _ =>
        -- a definition never stays virtual
        have changed := congrArg Prod.fst result
        cases bound : (afterReads target inst (stateBefore target function insts k).function
            (stateBefore target function insts k).state).2.state.vregToPhys.lookup vreg with
        | some phys | none => simp [defineOperand0, bound] at changed
      case h_2 => exact reads

include spillCode regular allocatable in
theorem traced_before (k : ℕ) :
    Traced target function insts (searchesBefore target function insts k)
      (BlockState.walk (stateBefore target function insts k).function
        (stateBefore target function insts k).state) := by
  induction k with
  | zero =>
    refine ⟨?_, ?_⟩
    · intro vreg search noted
      cases noted
    · intro vreg phys bound
      simp [BlockState.walk, stateBefore] at bound
  | succ k ih =>
    cases found : insts[k]? with
    | none =>
      rw [stateBefore_succ_of_none found, searchesBefore, found]
      exact ih
    | some inst =>
      have step := traced_rewriteInst spillCode regular allocatable found ih
      rw [stateBefore_succ target function found]
      apply step.of_unbinding
      intro vreg phys bound
      have coherent : (rewriteAt target function insts k inst).2.state.Coherent :=
        rewriteInst_coherent target inst _ (stateBefore_coherent target function insts k)
      have held := ((releaseLastUses_coherent coherent) vreg phys).mp bound
      exact (coherent vreg phys).mpr (releaseLastUses_holds coherent held).1

theorem SearchFacts.room {search : InstState Op}
    (facts : SearchFacts target function insts vreg search) (regular : target.Regular)
    (allocatable : Allocatable target function insts) :
    ∃ phys ∈ target.regs.tried (search.function.vregClass vreg), phys ∉ search.pinned := by
  obtain ⟨inst, member, isNamed, pinning⟩ := facts.named
  rw [facts.placed.vregClass, ← order_eq_tried]
  exact pinning.room regular facts.placed isNamed facts.unbound (allocatable.room inst member _)

include spillCode regular allocatable in
/-- At a call a 128-bit value is in a callee-saved register exactly since a search
that came there. -/
theorem savedAcross_iff (wide : function.vregClass vreg = .fpr128) (c : ℕ) :
    SavedAcross target function insts vreg c ↔ SavedSince target function insts vreg c := by
  have comes {search : InstState Op}
      (facts : SearchFacts target function insts vreg search) :
      ComesToSaved target.regs search ↔
        target.regs.isCalleeSaved (search.searchResult target vreg) = true := by
    have searched : search.function.vregClass vreg = .fpr128 := by
      rw [facts.placed.vregClass, wide]
    have room := facts.room regular allocatable
    rw [searched] at room
    exact comesToSaved_iff searched room
  constructor
  · rintro ⟨call, phys, found, isCall, bound, saved⟩
    have traced := traced_afterReads spillCode regular allocatable found
      (traced_before spillCode regular allocatable c)
    obtain ⟨search, noted, isFound⟩ := traced.found vreg phys bound
    refine ⟨call, search, found, isCall, noted, by rw [bound]; rfl, ?_⟩
    apply (comes (traced.facts vreg search noted)).mpr
    rwa [← isFound]
  · rintro ⟨call, search, found, isCall, noted, isBound, saved⟩
    have traced := traced_afterReads spillCode regular allocatable found
      (traced_before spillCode regular allocatable c)
    obtain ⟨phys, bound⟩ := Option.isSome_iff_exists.mp isBound
    obtain ⟨search', noted', isFound⟩ := traced.found vreg phys bound
    obtain rfl : search = search' := Option.some.inj (noted.symm.trans noted')
    refine ⟨call, phys, found, isCall, bound, ?_⟩
    rw [isFound]
    exact (comes (traced.facts vreg search noted)).mp saved

/-- Where few registers are named a search ends in front of the callee-saved ones. -/
theorem SearchFacts.not_comesToSaved {search : InstState Op}
    (facts : SearchFacts target function insts vreg search) (regular : target.Regular)
    (wide : function.vregClass vreg = .fpr128) (few : NamesFewWide target function insts) :
    ¬ ComesToSaved target.regs search := by
  rintro ⟨-, phys, isFirst, saved⟩
  obtain ⟨inst, member, isNamed, pinning⟩ := facts.named
  have split := takeWhile_append_dropWhile (p := fun phys => !target.regs.isCalleeSaved phys)
    (l := target.regs.fprOrder)
  have isPrefix := takeWhile_prefix (l := target.regs.fprOrder)
    (fun phys => !target.regs.isCalleeSaved phys)
  have tried : target.order (function.vregClass vreg) = target.regs.fprOrder := by
    rw [wide]
    rfl
  obtain ⟨low, isLow, unnamed⟩ := pinning.room_among regular facts.placed isNamed facts.unbound
    (by rw [tried]; exact isPrefix.subset) (regular.fprNodup.sublist isPrefix.sublist)
    (by rw [wide]; exact few inst member vreg isNamed wide)
  cases inFront : (target.regs.fprOrder.takeWhile fun phys =>
      !target.regs.isCalleeSaved phys).find? (fun phys => !search.isPinned phys) with
  | none =>
    have named := find?_eq_none.mp inFront low isLow
    simp [isPinned, unnamed] at named
  | some found =>
    rw [← split, find?_append, inFront, Option.some_or] at isFirst
    have lowered := mem_takeWhile_imp (mem_of_find?_eq_some inFront)
    rw [Option.some.inj isFirst, saved] at lowered
    cases lowered

include spillCode regular allocatable in
theorem readsMostRecent_iff_noWideSaved :
    ReadsMostRecent target access function insts ↔ NoWideSaved target function insts := by
  rw [readsMostRecent_iff spillCode regular allocatable]
  constructor
  · intro kept k inst index vreg j c found reads wide recent after before since
    apply kept k inst index vreg j c found reads wide recent after before
    exact (savedAcross_iff spillCode regular allocatable wide c).mpr since
  · intro kept k inst index vreg j c found reads wide recent after before saved
    apply kept k inst index vreg j c found reads wide recent after before
    exact (savedAcross_iff spillCode regular allocatable wide c).mp saved

include spillCode regular allocatable in
theorem noWideSaved_of_few (few : NamesFewWide target function insts) :
    NoWideSaved target function insts := by
  rintro k inst index vreg j c - - wide - - - ⟨call, search, found, isCall, noted, -, comes⟩
  have traced := traced_afterReads spillCode regular allocatable found
    (traced_before spillCode regular allocatable c)
  exact (traced.facts vreg search noted).not_comesToSaved regular wide few comes

end Blocks

section Functions

variable (spillCode : SpillCode target access function) (regular : target.Regular)
  (allocatable : ∀ block ∈ function.blocks, Allocatable target function block.insts)

end Functions

section AArch64

open AArch64

/-- The spill code of the target. -/
def spillAccess : A64Op → Option Access
  | .strX | .strD => some (.store 64)
  | .ldrX | .ldrD => some (.load 64)
  | .strQ => some (.store 128)
  | .ldrQ => some (.load 128)
  | _ => none

theorem fastTarget_regular : (fastTarget id).Regular := by
  refine ⟨by decide, by decide, by decide, ?_, fun _ _ member => member⟩
  intro op
  cases op <;> decide

theorem fastTarget_spillCode (function : MFunction A64Op) (word : function.wordBytes = 8) :
    SpillCode (fastTarget id) spillAccess function := by
  refine ⟨?_, ?_, by omega⟩
  · intro cls
    cases cls <;> simp [spillBytes, word] <;> rfl
  · intro cls
    cases cls <;> simp [spillBytes, word] <;> rfl

/-- Reads come after definitions. -/
def definedFirstCheck (target : Target Op) (insts : List (MInst Op)) : Bool :=
  insts.zipIdx.all fun (inst, k) =>
    inst.operands.zipIdx.all fun (operand, index) =>
      match operand with
      | .reg (.vreg vreg) =>
        isWriteOnlyDef (target.opcodeInfo inst.opcode) index || (lastDef target insts vreg k).isSome
      | _ => true

theorem definedFirst_of_check {target : Target Op} {insts : List (MInst Op)}
    (checked : definedFirstCheck target insts = true) (k : ℕ) (inst : MInst Op)
    (index vreg : ℕ) (found : insts[k]? = some inst) (reads : ReadsVreg target inst index vreg) :
    (lastDef target insts vreg k).isSome = true := by
  have isInst : (inst, k) ∈ insts.zipIdx := by
    rw [mem_zipIdx_iff_getElem?]
    exact found
  have isOperand : (MOperand.reg (.vreg vreg), index) ∈ inst.operands.zipIdx := by
    rw [mem_zipIdx_iff_getElem?]
    exact reads.operand
  have perInst := List.all_eq_true.mp checked _ isInst
  have perOperand := List.all_eq_true.mp perInst _ isOperand
  simpa [reads.reads] using perOperand

/-- Twenty-five 128-bit values are loaded, survive a call, and two are stored. -/
def keptAcrossCall : List (MInst A64Op) :=
  (List.range 25).map
      (fun vreg =>
        { opcode := .ldrQ, operands := [.reg (.vreg vreg), .frame 0 0, .imm 0] }) ++
    [{ opcode := .bl, operands := [.symbol "callee" .plain 0] },
      { opcode := .strQ, operands := [.reg (.vreg 0), .frame 0 0, .imm 0] },
      { opcode := .strQ, operands := [.reg (.vreg 24), .frame 0 0, .imm 0] }]

def keptFunction : MFunction A64Op :=
  { blocks := [{ insts := keptAcrossCall }]
    frameObjects := [⟨16, 16⟩]
    vregClasses := List.replicate 25 .fpr128 }

/-- Twenty-five 128-bit values go into one instruction, which is a call for the
allocator, and the last one is stored. -/
def wideBlock : List (MInst A64Op) :=
  (List.range 25).map
      (fun vreg =>
        { opcode := .ldrQ, operands := [.reg (.vreg vreg), .frame 0 0, .imm 0] }) ++
    [{ opcode := .asmBlock, operands := (List.range 25).map fun vreg => .reg (.vreg vreg) },
      { opcode := .strQ, operands := [.reg (.vreg 24), .frame 0 0, .imm 0] }]

def wideFunction : MFunction A64Op :=
  { blocks := [{ insts := wideBlock }]
    frameObjects := [⟨16, 16⟩]
    vregClasses := List.replicate 25 .fpr128 }

end AArch64


end Aburi.Backend.FastRegAllocator
