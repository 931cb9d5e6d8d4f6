import Aburi.Backend.AArch64.FrameSound
import Aburi.Backend.FrameAreas

/-!
# Saved registers of an AArch64 frame

The prologue and the epilogues are run on a machine that records which
registers are saved and restored at which addresses.  What a load returns is a
parameter, so nothing depends on what the body leaves in the slots.
-/

namespace Aburi.Backend.AArch64

open List Option

abbrev SavingState := MachineState (List SlotAccess)

namespace SavingState

def log (state : SavingState) (access : SlotAccess) : SavingState :=
  { state with mem := state.mem ++ [access] }

def save (state : SavingState) (phys : Nat) (target : Word) : SavingState :=
  state.log (.save 8 phys target)

def restore (loaded : Word → Contents) (state : SavingState) (phys : Nat) (target : Word) :
    SavingState :=
  (state.log (.restore 8 phys target)).set phys (loaded target)

end SavingState

open SavingState

/-- The offsets of a load or store of one word, and of a pair of words. -/
def IsWordOffset (value : Int) : Prop := 8 ∣ value ∧ 0 ≤ value ∧ value ≤ 32760

def IsPairOffset (value : Int) : Prop := 8 ∣ value ∧ -512 ≤ value ∧ value ≤ 504

/-- The immediates of additions and subtractions. -/
def IsAddend (value : Int) : Prop := 0 ≤ value ∧ value ≤ 4095

instance (value : Int) : Decidable (IsWordOffset value) := inferInstanceAs (Decidable (_ ∧ _))

instance (value : Int) : Decidable (IsPairOffset value) := inferInstanceAs (Decidable (_ ∧ _))

instance (value : Int) : Decidable (IsAddend value) := inferInstanceAs (Decidable (_ ∧ _))

theorem isWordOffset_toInt {offset : Word} :
    IsWordOffset offset.toInt ↔ 8 ∣ offset.toNat ∧ offset.toNat ≤ 32760 := by
  have bounded := offset.isLt
  rw [IsWordOffset, BitVec.toInt_eq_toNat_cond]
  split <;> omega

theorem isPairOffset_toInt {offset : Word} (whole : 8 ∣ offset.toNat) (near : offset.toNat ≤ 504) :
    IsPairOffset offset.toInt := by
  rw [IsPairOffset, BitVec.toInt_eq_toNat_cond]
  split <;> omega

theorem isAddend_toInt {amount : Word} (small : amount ≤ 4095) : IsAddend amount.toInt := by
  have isSmall : amount.toNat ≤ 4095 := small
  rw [IsAddend, BitVec.toInt_eq_toNat_cond]
  split <;> omega

section Runs

variable (layout : FrameLayout) (loaded : Word → Contents)

/-- The instructions of prologues and epilogues, as far as their immediates can
be encoded.  Pairs take two words. -/
def runInst (inst : MInst A64Op) (state : SavingState) : Option SavingState :=
  match inst.opcode, inst.operands with
  | .stpXpre, [.reg (.phys a), .reg (.phys b), .reg (.phys base), .imm value] =>
    let target := state.word base + BitVec.ofInt 64 value
    if IsPairOffset value then
      some (((state.save a target).save b (target + 8)).setWord base target)
    else none
  | .stpXoff, [.reg (.phys a), .reg (.phys b), .reg (.phys base), .imm value]
  | .stpDoff, [.reg (.phys a), .reg (.phys b), .reg (.phys base), .imm value] =>
    let target := state.word base + BitVec.ofInt 64 value
    if IsPairOffset value then some ((state.save a target).save b (target + 8)) else none
  | .strX, [.reg (.phys a), .reg (.phys base), .imm value]
  | .strD, [.reg (.phys a), .reg (.phys base), .imm value] =>
    if IsWordOffset value then some (state.save a (state.word base + BitVec.ofInt 64 value))
    else none
  | .ldpXpost, [.reg (.phys a), .reg (.phys b), .reg (.phys base), .imm value] =>
    let target := state.word base
    if IsPairOffset value then
      some ((restore loaded (restore loaded state a target) b (target + 8)).setWord base
        (target + BitVec.ofInt 64 value))
    else none
  | .ldpXoff, [.reg (.phys a), .reg (.phys b), .reg (.phys base), .imm value]
  | .ldpDoff, [.reg (.phys a), .reg (.phys b), .reg (.phys base), .imm value] =>
    let target := state.word base + BitVec.ofInt 64 value
    if IsPairOffset value then
      some (restore loaded (restore loaded state a target) b (target + 8))
    else none
  | .ldrX, [.reg (.phys a), .reg (.phys base), .imm value]
  | .ldrD, [.reg (.phys a), .reg (.phys base), .imm value] =>
    if IsWordOffset value then
      some (restore loaded state a (state.word base + BitVec.ofInt 64 value))
    else none
  | .movX, [.reg (.phys d), .reg (.phys source)] => some (state.setWord d (state.word source))
  | .addXri, [.reg (.phys d), .reg (.phys a), .imm value] =>
    if IsAddend value then some (state.setWord d (state.word a + BitVec.ofInt 64 value)) else none
  | .subXri, [.reg (.phys d), .reg (.phys a), .imm value] =>
    if IsAddend value then some (state.setWord d (state.word a - BitVec.ofInt 64 value)) else none
  | .ret, [] | .brReg, [.reg (.phys _)] => some state
  | .movzX, _ | .movkX, _ | .addX, _ | .subX, _ =>
    execInst ⟨fun _ _ _ mem => (0, mem)⟩ layout 0 inst state
  | _, _ => none

def runAll (insts : List (MInst A64Op)) (state : SavingState) : Option SavingState :=
  insts.foldlM (fun state inst => runInst layout loaded inst state) state

theorem runAll_append (first second : List (MInst A64Op)) (state : SavingState) :
    runAll layout loaded (first ++ second) state =
      (runAll layout loaded first state).bind (runAll layout loaded second) := by
  simp only [runAll, foldlM_append]
  rfl

@[simp] theorem runAll_nil (state : SavingState) : runAll layout loaded [] state = some state := rfl

theorem runAll_cons (inst : MInst A64Op) (rest : List (MInst A64Op)) (state : SavingState) :
    runAll layout loaded (inst :: rest) state =
      (runInst layout loaded inst state).bind (runAll layout loaded rest) := rfl

def MovesChunk (inst : MInst A64Op) : Prop := inst.opcode = .movzX ∨ inst.opcode = .movkX

theorem emitChunk_moves {offset : Word} {state : List (MInst A64Op) × Bool}
    (moves : ∀ inst ∈ state.1, MovesChunk inst) (i : Nat) :
    ∀ inst ∈ (emitChunk offset state i).1, MovesChunk inst := by
  have appended : ∀ last, MovesChunk last → ∀ inst ∈ state.1 ++ [last], MovesChunk inst := by
    intro last isMove inst member
    rcases mem_append.mp member with old | new
    · exact moves inst old
    · rw [mem_singleton.mp new]
      exact isMove
  rw [emitChunk]
  split
  · split
    · exact moves
    · exact appended _ (.inr rfl)
  · split
    · exact moves
    · exact appended _ (.inl rfl)

theorem emitOffsetIntoX16_moves (offset : Word) :
    ∀ inst ∈ emitOffsetIntoX16 offset, MovesChunk inst := by
  have run : ∀ (chunks : List Nat) (state : List (MInst A64Op) × Bool),
      (∀ inst ∈ state.1, MovesChunk inst) →
      ∀ inst ∈ (chunks.foldl (emitChunk offset) state).1, MovesChunk inst := by
    intro chunks
    induction chunks with
    | nil => exact fun _ moves => moves
    | cons i chunks ih => exact fun _ moves => ih _ (emitChunk_moves moves i)
  have all := run (range 4) ([], false) (fun _ member => nomatch member)
  rw [emitOffsetIntoX16]
  generalize (range 4).foldl (emitChunk offset) ([], false) = emitted at all
  obtain ⟨out, started⟩ := emitted
  cases started with
  | true => exact all
  | false =>
    intro inst member
    rcases mem_append.mp member with old | new
    · exact all inst old
    · rw [mem_singleton.mp new]
      exact .inl rfl

/-- The instructions that load an offset run as in a lowered access. -/
theorem runAll_emitOffsetIntoX16 (offset : Word) (state : SavingState) :
    runAll layout loaded (emitOffsetIntoX16 offset) state = some (state.setWord X16 offset) := by
  have same : ∀ insts : List (MInst A64Op), (∀ inst ∈ insts, MovesChunk inst) →
      ∀ state : SavingState, runAll layout loaded insts state =
        execAll ⟨fun _ _ _ mem => (0, mem)⟩ layout 0 insts state := by
    intro insts moves
    induction insts with
    | nil => exact fun _ => rfl
    | cons inst insts ih =>
      intro state
      have rest := ih fun other later => moves other (.tail _ later)
      have first : runInst layout loaded inst state =
          execInst ⟨fun _ _ _ mem => (0, mem)⟩ layout 0 inst state := by
        obtain ⟨opcode, aux, operands⟩ := inst
        rcases moves _ (.head _) with isMovz | isMovk
        · cases isMovz
          rfl
        · cases isMovk
          rfl
      rw [runAll_cons, first, execAll, foldlM_cons]
      exact congrArg _ (funext rest)
  rw [same _ (emitOffsetIntoX16_moves offset)]
  exact execAll_emitOffsetIntoX16 _ layout 0 offset state

theorem runAll_emitSpAdjust (subtract : Bool) (amount : Word) (state : SavingState) :
    ∃ after, runAll layout loaded (emitSpAdjust subtract amount) state = some after ∧
      after.mem = state.mem ∧
      after.word SP = (if subtract then state.word SP - amount else state.word SP + amount) ∧
      ∀ r, r ≠ SP → r ≠ X16 → after.regs r = state.regs r := by
  rw [emitSpAdjust]
  split
  case isTrue isZero =>
    refine ⟨state, rfl, rfl, ?_, fun _ _ _ => rfl⟩
    cases subtract <;> simp [isZero]
  case isFalse =>
    split
    case isTrue small =>
      refine ⟨state.setWord SP
        (if subtract then state.word SP - amount else state.word SP + amount), ?_, rfl,
        MachineState.word_setWord_self _ _ _,
        fun r notSp _ => MachineState.regs_set_ne _ _ notSp⟩
      have encodes := isAddend_toInt small
      cases subtract <;> simp [runAll_cons, runInst, regOp, immOp, encodes]
    case isFalse =>
      refine ⟨(state.setWord X16 amount).setWord SP
        (if subtract then state.word SP - amount else state.word SP + amount), ?_, rfl,
        MachineState.word_setWord_self _ _ _, ?_⟩
      · have keepsSp := MachineState.word_setWord_ne state amount (show SP ≠ X16 by decide)
        rw [runAll_append, runAll_emitOffsetIntoX16]
        have value := MachineState.word_setWord_self state X16 amount
        cases subtract
        · exact congrArg₂ (fun x y => some (MachineState.setWord _ SP (x + y))) keepsSp value
        · exact congrArg₂ (fun x y => some (MachineState.setWord _ SP (x - y))) keepsSp value
      · intro r notSp notX16
        rw [MachineState.setWord, MachineState.regs_set_ne _ _ notSp]
        exact MachineState.regs_set_ne _ _ notX16

/-- Instructions that save a pair of registers and a single one. -/
structure SavesWith (pair single : A64Op) : Prop where
  pair : ∀ (a b : Nat) (offset : Word) (state : SavingState), 8 ∣ offset.toNat →
    offset.toNat ≤ 504 → runInst layout loaded
    { opcode := pair, operands := [regOp a, regOp b, regOp SP, immOp offset] } state =
      some ((state.save a (state.word SP + offset)).save b (state.word SP + offset + 8))
  single : ∀ (a : Nat) (offset : Word) (state : SavingState), runInst layout loaded
    { opcode := single, operands := [regOp a, regOp SP, immOp offset] } state =
      if IsWordOffset offset.toInt then some (state.save a (state.word SP + offset)) else none

structure RestoresWith (pair single : A64Op) : Prop where
  pair : ∀ (a b : Nat) (offset : Word) (state : SavingState), 8 ∣ offset.toNat →
    offset.toNat ≤ 504 → runInst layout loaded
    { opcode := pair, operands := [regOp a, regOp b, regOp SP, immOp offset] } state =
      some (restore loaded (restore loaded state a (state.word SP + offset)) b
        (state.word SP + offset + 8))
  single : ∀ (a : Nat) (offset : Word) (state : SavingState), runInst layout loaded
    { opcode := single, operands := [regOp a, regOp SP, immOp offset] } state =
      if IsWordOffset offset.toInt then some (restore loaded state a (state.word SP + offset))
      else none

theorem savesWith_gpr : SavesWith layout loaded .stpXoff .strX := by
  constructor
  · intro a b offset state whole near
    simp [runInst, regOp, immOp, isPairOffset_toInt whole near]
  · intros
    simp [runInst, regOp, immOp]

theorem savesWith_fpr : SavesWith layout loaded .stpDoff .strD := by
  constructor
  · intro a b offset state whole near
    simp [runInst, regOp, immOp, isPairOffset_toInt whole near]
  · intros
    simp [runInst, regOp, immOp]

theorem restoresWith_gpr : RestoresWith layout loaded .ldpXoff .ldrX := by
  constructor
  · intro a b offset state whole near
    simp [runInst, regOp, immOp, isPairOffset_toInt whole near]
  · intros
    simp [runInst, regOp, immOp]

theorem restoresWith_fpr : RestoresWith layout loaded .ldpDoff .ldrD := by
  constructor
  · intro a b offset state whole near
    simp [runInst, regOp, immOp, isPairOffset_toInt whole near]
  · intros
    simp [runInst, regOp, immOp]

/-- Slots from an offset on that single accesses reach, up to a bound that may be
that of the pairs. -/
def InReach (bound : Nat) (offset : Word) (regs : List Nat) : Prop :=
  ∀ slot ∈ slotsFrom 8 offset regs, 8 ∣ slot.2.toNat ∧ slot.2.toNat ≤ bound

theorem InReach.append_iff {bound : Nat} {offset : Word} {regs others : List Nat} :
    InReach bound offset (regs ++ others) ↔ InReach bound offset regs ∧
      InReach bound (offset + BitVec.ofNat 64 (8 * regs.length)) others := by
  rw [InReach, slotsFrom_append]
  exact forall_mem_append

theorem InReach.cons_iff {bound phys : Nat} {offset : Word} {regs : List Nat} :
    InReach bound offset (phys :: regs) ↔
      (8 ∣ offset.toNat ∧ offset.toNat ≤ bound) ∧ InReach bound (offset + 8) regs := by
  rw [InReach, slotsFrom]
  exact forall_mem_cons

variable {layout loaded}

/-- The slots of a list of registers are saved in order; nothing else happens. -/
def SavesAll (layout : FrameLayout) (loaded : Word → Contents) (insts : List (MInst A64Op))
    (offset : Word) (regs : List Nat) : Prop :=
  ∀ state : SavingState, runAll layout loaded insts state =
    some { state with mem := state.mem ++ saves 8 (slotsFrom 8 (state.word SP + offset) regs) }

/-- The registers are restored in order, and no other register changes. -/
def RestoresAll (layout : FrameLayout) (loaded : Word → Contents) (insts : List (MInst A64Op))
    (offset : Word) (regs : List Nat) : Prop :=
  ∀ state : SavingState, ∃ after, runAll layout loaded insts state = some after ∧
    after.mem = state.mem ++ restores 8 (slotsFrom 8 (state.word SP + offset) regs) ∧
    ∀ r, r ∉ regs → after.regs r = state.regs r

variable {regs : List Nat}

section

variable {first second : List (MInst A64Op)} {offset : Word} {others : List Nat}

theorem SavesAll.append (left : SavesAll layout loaded first offset regs)
    (right : SavesAll layout loaded second (offset + BitVec.ofNat 64 (8 * regs.length)) others) :
    SavesAll layout loaded (first ++ second) offset (regs ++ others) := by
  intro state
  rw [runAll_append, left, bind_some, right, slotsFrom_append, saves_append,
    ← append_assoc, BitVec.add_assoc]
  rfl

theorem RestoresAll.append (notSp : SP ∉ regs) (left : RestoresAll layout loaded first offset regs)
    (right : RestoresAll layout loaded second (offset + BitVec.ofNat 64 (8 * regs.length)) others) :
    RestoresAll layout loaded (first ++ second) offset (regs ++ others) := by
  intro state
  obtain ⟨middle, runsFirst, firstLog, firstKeeps⟩ := left state
  obtain ⟨after, runsSecond, secondLog, secondKeeps⟩ := right middle
  have sameSp : middle.word SP = state.word SP := by
    rw [MachineState.word, firstKeeps SP notSp, MachineState.word]
  refine ⟨after, ?_, ?_, fun r outside => ?_⟩
  · rw [runAll_append, runsFirst, bind_some, runsSecond]
  · rw [secondLog, firstLog, sameSp, slotsFrom_append, restores_append, ← append_assoc,
      BitVec.add_assoc]
  · rw [secondKeeps r fun member => outside (mem_append_right _ member),
      firstKeeps r fun member => outside (mem_append_left _ member)]

end

variable {pair single : A64Op}

section

variable (saving : SavesWith layout loaded pair single)
include saving

theorem SavesWith.single_saves (phys : Nat) {offset : Word}
    (reach : 8 ∣ offset.toNat ∧ offset.toNat ≤ 32760) : SavesAll layout loaded
      [{ opcode := single, operands := [regOp phys, regOp SP, immOp offset] }] offset [phys] := by
  intro state
  rw [runAll_cons, saving.single, if_pos (isWordOffset_toInt.mpr reach)]
  rfl

theorem SavesWith.pair_saves (a b : Nat) {offset : Word}
    (reach : 8 ∣ offset.toNat ∧ offset.toNat ≤ 504) : SavesAll layout loaded
      [{ opcode := pair, operands := [regOp a, regOp b, regOp SP, immOp offset] }] offset
        [a, b] := by
  intro state
  rw [runAll_cons, saving.pair a b offset state reach.1 reach.2]
  simp [runAll, saves, slotsFrom, SavingState.save, SavingState.log]

theorem runAll_savePairs {offset : Word} {regs : List Nat} (reach : InReach 504 offset regs) :
    SavesAll layout loaded (accessPairs pair single offset regs) offset regs := by
  fun_induction accessPairs pair single offset regs with
  | case1 offset first second rest ih =>
    obtain ⟨here, later⟩ := InReach.append_iff.mp (show InReach 504 offset ([first, second] ++ rest)
      from reach)
    exact (saving.pair_saves first second (here _ (.head _))).append (ih later)
  | case2 offset last =>
    obtain ⟨whole, near⟩ := reach _ (.head _)
    exact saving.single_saves last ⟨whole, near.trans (by decide)⟩
  | case3 offset => exact fun state => by simp [runAll, saves, slotsFrom]

theorem runAll_saveSingles {offset : Word} {regs : List Nat} (reach : InReach 32760 offset regs) :
    SavesAll layout loaded (accessSingles single offset regs) offset regs := by
  fun_induction accessSingles single offset regs with
  | case1 offset => exact fun state => by simp [runAll, saves, slotsFrom]
  | case2 offset phys rest ih =>
    obtain ⟨here, later⟩ := InReach.cons_iff.mp reach
    exact (saving.single_saves phys here).append (ih later)

/-- Single saves only run where each of their offsets can be encoded. -/
theorem inReach_of_runAll_saveSingles {offset : Word} {regs : List Nat} {state after : SavingState}
    (runs : runAll layout loaded (accessSingles single offset regs) state = some after) :
    InReach 32760 offset regs := by
  induction regs generalizing offset state with
  | nil => exact nofun
  | cons phys rest ih =>
    rw [accessSingles, runAll_cons, saving.single] at runs
    split at runs
    case isTrue encodes =>
      exact InReach.cons_iff.mpr ⟨isWordOffset_toInt.mp encodes, ih runs⟩
    case isFalse => cases runs

end

section

variable (restoring : RestoresWith layout loaded pair single)
include restoring

theorem RestoresWith.single_restores (phys : Nat) {offset : Word}
    (reach : 8 ∣ offset.toNat ∧ offset.toNat ≤ 32760) :
    RestoresAll layout loaded
      [{ opcode := single, operands := [regOp phys, regOp SP, immOp offset] }] offset [phys] := by
  intro state
  refine ⟨restore loaded state phys (state.word SP + offset), ?_, rfl, fun r outside => ?_⟩
  · rw [runAll_cons, restoring.single, if_pos (isWordOffset_toInt.mpr reach)]
    rfl
  · exact MachineState.regs_set_ne _ _ fun isPhys => outside (isPhys ▸ .head _)

theorem RestoresWith.pair_restores (a b : Nat) {offset : Word}
    (reach : 8 ∣ offset.toNat ∧ offset.toNat ≤ 504) :
    RestoresAll layout loaded
      [{ opcode := pair, operands := [regOp a, regOp b, regOp SP, immOp offset] }] offset
        [a, b] := by
  intro state
  have runs := restoring.pair a b offset state reach.1 reach.2
  refine ⟨_, by rw [runAll_cons, runs]; rfl, ?_, fun r outside => ?_⟩
  · simp [restores, slotsFrom, SavingState.restore, SavingState.log]
  · rw [mem_cons, mem_singleton, not_or] at outside
    exact (MachineState.regs_set_ne _ _ outside.2).trans (MachineState.regs_set_ne _ _ outside.1)

theorem runAll_restorePairs (notSp : SP ∉ regs) {offset : Word} (reach : InReach 504 offset regs) :
    RestoresAll layout loaded (accessPairs pair single offset regs) offset regs := by
  fun_induction accessPairs pair single offset regs with
  | case1 offset first second rest ih =>
    rw [mem_cons, mem_cons, not_or, not_or] at notSp
    obtain ⟨here, later⟩ := InReach.append_iff.mp (show InReach 504 offset ([first, second] ++ rest)
      from reach)
    exact (restoring.pair_restores first second (here _ (.head _))).append
      (by simp [notSp.1, notSp.2.1]) (ih notSp.2.2 later)
  | case2 offset last =>
    obtain ⟨whole, near⟩ := reach _ (.head _)
    exact restoring.single_restores last ⟨whole, near.trans (by decide)⟩
  | case3 offset => exact fun state => ⟨state, rfl, by simp [restores, slotsFrom], fun _ _ => rfl⟩

theorem runAll_restoreSingles (notSp : SP ∉ regs) {offset : Word}
    (reach : InReach 32760 offset regs) :
    RestoresAll layout loaded (accessSingles single offset regs) offset regs := by
  fun_induction accessSingles single offset regs with
  | case1 offset => exact fun state => ⟨state, rfl, by simp [restores, slotsFrom], fun _ _ => rfl⟩
  | case2 offset phys rest ih =>
    rw [mem_cons, not_or] at notSp
    obtain ⟨here, later⟩ := InReach.cons_iff.mp reach
    exact (restoring.single_restores phys here).append (by simp [notSp.1]) (ih notSp.2 later)

end

/-- Pairs and single accesses reach the slots of the frame. -/
def FrameLayout.ReachesSlots (layout : FrameLayout) : Prop :=
  InReach (if layout.savePairs then 504 else 32760) layout.saveBase layout.csrs

theorem accessCsrs_saves (reaches : layout.ReachesSlots) :
    SavesAll layout loaded (accessCsrs layout .stpXoff .strX .stpDoff .strD) layout.saveBase
      layout.csrs := by
  have gpr := savesWith_gpr layout loaded
  have fpr := savesWith_fpr layout loaded
  obtain ⟨gprReach, fprReach⟩ := InReach.append_iff.mp reaches
  rw [accessCsrs]
  split
  case isTrue pairs =>
    rw [if_pos pairs] at gprReach fprReach
    exact (runAll_savePairs gpr gprReach).append (runAll_savePairs fpr fprReach)
  case isFalse singles =>
    rw [if_neg singles] at gprReach fprReach
    exact (runAll_saveSingles gpr gprReach).append (runAll_saveSingles fpr fprReach)

theorem accessCsrs_restores (reaches : layout.ReachesSlots) (notSp : SP ∉ layout.csrs) :
    RestoresAll layout loaded (accessCsrs layout .ldpXoff .ldrX .ldpDoff .ldrD) layout.saveBase
      layout.csrs := by
  have gpr := restoresWith_gpr layout loaded
  have fpr := restoresWith_fpr layout loaded
  obtain ⟨gprReach, fprReach⟩ := InReach.append_iff.mp reaches
  rw [FrameLayout.csrs, mem_append, not_or] at notSp
  rw [accessCsrs]
  split
  case isTrue pairs =>
    rw [if_pos pairs] at gprReach fprReach
    exact (runAll_restorePairs gpr notSp.1 gprReach).append notSp.1
      (runAll_restorePairs fpr notSp.2 fprReach)
  case isFalse singles =>
    rw [if_neg singles] at gprReach fprReach
    exact (runAll_restoreSingles gpr notSp.1 gprReach).append notSp.1
      (runAll_restoreSingles fpr notSp.2 fprReach)

/-- Without pairs the saves only run where they reach their slots. -/
theorem inReach_of_runAll_accessCsrs {state after : SavingState} (singles : layout.savePairs = false)
    (runs : runAll layout loaded (accessCsrs layout .stpXoff .strX .stpDoff .strD) state =
      some after) : InReach 32760 layout.saveBase layout.csrs := by
  rw [accessCsrs, if_neg (Bool.eq_false_iff.mp singles), runAll_append] at runs
  obtain ⟨middle, runsGpr, runsFpr⟩ := bind_eq_some_iff.mp runs
  exact InReach.append_iff.mpr
    ⟨inReach_of_runAll_saveSingles (savesWith_gpr layout loaded) runsGpr,
      inReach_of_runAll_saveSingles (savesWith_fpr layout loaded) runsFpr⟩

end Runs

/-- The slots of the saved registers, and the pair below the return address. -/
def savedSlots (layout : FrameLayout) (base : Word) : List (Nat × Word) :=
  slotsFrom 8 (base + layout.saveBase) layout.csrs

def frameRecord (layout : FrameLayout) (base : Word) : List (Nat × Word) :=
  [(X29, base + layout.frameSize), (X30, base + layout.frameSize + 8)]

variable {base : Word} {state : SavingState}

section

variable (layout : FrameLayout) (loaded : Word → Contents)
  (entry : state.word SP = base + layout.frameSize + 16)
include layout loaded entry

theorem push_run :
    ∃ after, runAll layout loaded
        [{ opcode := .stpXpre, operands := [regOp X29, regOp X30, regOp SP, .imm (-16)] },
          { opcode := .movX, operands := [regOp X29, regOp SP] }] state = some after ∧
      after.mem = state.mem ++ saves 8 (frameRecord layout base) ∧
      after.word SP = base + layout.frameSize ∧ after.word X29 = base + layout.frameSize := by
  have below : state.word SP + BitVec.ofInt 64 (-16) = base + layout.frameSize := by
    rw [entry, BitVec.add_assoc]
    exact BitVec.add_zero _
  refine ⟨(((state.save X29 (base + layout.frameSize)).save X30
    (base + layout.frameSize + 8)).setWord SP (base + layout.frameSize)).setWord X29
      (base + layout.frameSize), ?_, ?_, ?_, MachineState.word_setWord_self _ _ _⟩
  · have encodes : IsPairOffset (-16) := by decide
    have pushes : runInst layout loaded
        { opcode := .stpXpre, operands := [regOp X29, regOp X30, regOp SP, .imm (-16)] } state =
          some (((state.save X29 (state.word SP + BitVec.ofInt 64 (-16))).save X30
            (state.word SP + BitVec.ofInt 64 (-16) + 8)).setWord SP
              (state.word SP + BitVec.ofInt 64 (-16))) := by
      show (if IsPairOffset (-16) then _ else none) = _
      exact if_pos encodes
    rw [below] at pushes
    rw [runAll_cons, pushes, bind_some, runAll_cons]
    show (some (MachineState.setWord _ X29 (MachineState.word _ SP))).bind _ = _
    rw [MachineState.word_setWord_self]
    rfl
  · simp [SavingState.save, SavingState.log, saves, frameRecord]
  · rw [MachineState.word_setWord_ne _ _ (by decide), MachineState.word_setWord_self]

theorem prologue_run (reaches : layout.ReachesSlots) :
    ∃ after, runAll layout loaded (prologue layout) state = some after ∧
      after.mem = state.mem ++ saves 8 (frameRecord layout base ++ savedSlots layout base) ∧
      AtFrame layout base after := by
  obtain ⟨pushed, runsPush, pushLog, pushSp, pushFp⟩ := push_run layout loaded entry
  obtain ⟨adjusted, runsAdjust, sameLog, isBase, keeps⟩ :=
    runAll_emitSpAdjust layout loaded true layout.frameSize pushed
  rw [if_pos rfl, pushSp, BitVec.add_sub_cancel] at isBase
  have runsSaves : runAll layout loaded _ adjusted = _ := accessCsrs_saves reaches adjusted
  rw [isBase] at runsSaves
  refine ⟨{ adjusted with mem := adjusted.mem ++ saves 8 (savedSlots layout base) }, ?_, ?_, ?_,
    fun _ => isBase⟩
  · rw [prologue, runAll_append, runAll_append, runsPush, bind_some, runsAdjust,
      bind_some, runsSaves]
    rfl
  · rw [sameLog, pushLog, saves_append, ← append_assoc]
  · show adjusted.word X29 = base + layout.frameSize
    rw [MachineState.word, keeps X29 (by decide) (by decide)]
    exact pushFp

end

/-- The head of an epilogue: a stack pointer that moved comes back to the base. -/
def resetSp (layout : FrameLayout) : List (MInst A64Op) :=
  if layout.dynamic then
    if layout.frameSize ≤ 4095 then
      [{ opcode := .subXri, operands := [regOp SP, regOp X29, immOp layout.frameSize] }]
    else
      emitOffsetIntoX16 layout.frameSize ++
        [{ opcode := .subX, operands := [regOp SP, regOp X29, regOp X16] }]
  else []

section

variable (layout : FrameLayout) (loaded : Word → Contents)
include layout loaded

theorem resetSp_run (atFrame : AtFrame layout base state) :
    ∃ after, runAll layout loaded (resetSp layout) state = some after ∧
      after.mem = state.mem ∧ after.word SP = base := by
  have isBase : state.word X29 - layout.frameSize = base := by
    rw [atFrame.1, BitVec.add_sub_cancel]
  rw [resetSp]
  split
  case isFalse isStatic =>
    exact ⟨state, rfl, rfl, atFrame.2 (Bool.eq_false_iff.mpr isStatic)⟩
  case isTrue =>
    split
    case isTrue small =>
      refine ⟨state.setWord SP base, ?_, rfl, MachineState.word_setWord_self _ _ _⟩
      have encodes := isAddend_toInt small
      simp [runAll_cons, runInst, regOp, immOp, encodes, isBase]
    case isFalse =>
      refine ⟨(state.setWord X16 layout.frameSize).setWord SP base, ?_, rfl,
        MachineState.word_setWord_self _ _ _⟩
      have keepsFp := MachineState.word_setWord_ne state layout.frameSize (show X29 ≠ X16 by decide)
      rw [runAll_append, runAll_emitOffsetIntoX16, ← isBase]
      exact congrArg₂ (fun x y => some (MachineState.setWord _ SP (x - y))) keepsFp
        (MachineState.word_setWord_self _ _ _)

/-- The registers of the frame record are restored and the stack pointer moves
past it. -/
theorem pop_run (atRecord : state.word SP = base + layout.frameSize) (tailBranch : Bool) :
    ∃ after, runAll layout loaded
        [{ opcode := .ldpXpost, operands := [regOp X29, regOp X30, regOp SP, .imm 16] },
          if tailBranch then { opcode := .brReg, operands := [regOp X17] }
          else { opcode := .ret, operands := [] }] state = some after ∧
      after.mem = state.mem ++ restores 8 (frameRecord layout base) ∧
      after.word SP = base + layout.frameSize + 16 := by
  refine ⟨(restore loaded (restore loaded state X29 (base + layout.frameSize)) X30
    (base + layout.frameSize + 8)).setWord SP (base + layout.frameSize + 16), ?_, ?_,
    MachineState.word_setWord_self _ _ _⟩
  · rw [← atRecord]
    cases tailBranch <;> rfl
  · simp [SavingState.restore, SavingState.log, restores, frameRecord]

theorem epilogue_run (reaches : layout.ReachesSlots) (tailBranch : Bool)
    (atFrame : AtFrame layout base state) (notSp : SP ∉ layout.csrs) :
    ∃ after, runAll layout loaded (epilogue layout tailBranch) state = some after ∧
      after.mem = state.mem ++ restores 8 (savedSlots layout base ++ frameRecord layout base) ∧
      after.word SP = base + layout.frameSize + 16 := by
  obtain ⟨reset, runsReset, resetLog, resetBase⟩ := resetSp_run layout loaded atFrame
  have restores : RestoresAll layout loaded _ _ _ := accessCsrs_restores reaches notSp
  obtain ⟨restored, runsRestore, restoreLog, keeps⟩ := restores reset
  have stillBase : restored.word SP = base := by
    rw [MachineState.word, keeps SP notSp]
    exact resetBase
  obtain ⟨adjusted, runsAdjust, adjustLog, atRecord, -⟩ :=
    runAll_emitSpAdjust layout loaded false layout.frameSize restored
  rw [if_neg Bool.false_ne_true, stillBase] at atRecord
  obtain ⟨popped, runsPop, popLog, popSp⟩ := pop_run layout loaded atRecord tailBranch
  refine ⟨popped, ?_, ?_, popSp⟩
  · have parts : epilogue layout tailBranch = resetSp layout ++
        accessCsrs layout .ldpXoff .ldrX .ldpDoff .ldrD ++ emitSpAdjust false layout.frameSize ++
        [{ opcode := .ldpXpost, operands := [regOp X29, regOp X30, regOp SP, .imm 16] },
          if tailBranch then { opcode := .brReg, operands := [regOp X17] }
          else { opcode := .ret, operands := [] }] := rfl
    rw [parts, runAll_append, runAll_append, runAll_append, runsReset, bind_some,
      runsRestore, bind_some, runsAdjust, bind_some, runsPop]
  · rw [popLog, adjustLog, restoreLog, resetLog, resetBase, restores_append, ← append_assoc]
    rfl

end

/-- Code that pushes the frame record, opens the frame below it and saves the
registers in their slots. -/
def Opens (layout : FrameLayout) (insts : List (MInst A64Op)) : Prop :=
  ∀ (loaded : Word → Contents) (state : SavingState),
    let base := state.word SP - 16 - layout.frameSize
    ∃ after, runAll layout loaded insts state = some after ∧
      after.mem = state.mem ++ saves 8 (frameRecord layout base ++ savedSlots layout base) ∧
      AtFrame layout base after

/-- Code that restores from their slots the registers that `Opens` saves there,
and gives the frame back. -/
def Closes (layout : FrameLayout) (insts : List (MInst A64Op)) : Prop :=
  ∀ (loaded : Word → Contents) (base : Word) (state : SavingState), AtFrame layout base state →
    ∃ after, runAll layout loaded insts state = some after ∧
      after.mem = state.mem ++ restores 8 (savedSlots layout base ++ frameRecord layout base) ∧
      after.word SP = base + layout.frameSize + 16

def isEpilogue (opcode : A64Op) : Bool := opcode == .epilogueRet || opcode == .epilogueTailBr

/-- The areas are apart, objects are aligned below an aligned stack pointer, the
lowered function opens the frame and closes it in every epilogue, its
instructions find the objects, and the distances that it records for the slots
are the true ones. -/
structure FrameSound (function : MFunction A64Op) : Prop where
  areas : AreasFit
    (frameAreas (frameLayout function).saveBase 8 (frameLayout function).csrs.length
      (frameLayout function).offsets function.frameObjects) (frameLayout function).frameSize.toNat
  registers : (frameLayout function).csrs.Perm function.usedCsrs
  aligned : ∀ (sp : Word) (index : Nat) (object : FrameObject), 16 ∣ sp.toNat →
    function.frameObjects[index]? = some object →
    object.align ∣ (sp - 16 - (frameLayout function).frameSize +
      (frameLayout function).offset index).toNat
  lowered : ∀ k (block : MBlock A64Op), function.blocks[k]? = some block →
    ∃ opening, (lowerFrame function).blocks[k]? = some { block with
        insts := opening ++ block.insts.flatMap (lowerInst (frameLayout function)) } ∧
      if k = 0 then Opens (frameLayout function) opening else opening = []
  found : ∀ (Mem : Type) (accesses : Accesses Mem) (base : Word) (state : MachineState Mem)
    (dst index : Nat), AtFrame (frameLayout function) base state →
    ∃ after, execAll accesses (frameLayout function) base
        (lowerInst (frameLayout function) ⟨.frameAddr, 0, [regOp dst, .frame index 0]⟩) state =
          some after ∧ after.word dst = base + (frameLayout function).offset index
  closed : ∀ block ∈ function.blocks, ∀ inst ∈ block.insts, isEpilogue inst.opcode = true →
    Closes (frameLayout function) (lowerInst (frameLayout function) inst)
  recorded : (lowerFrame function).csrCfaOffsets =
    slotDistances 8 16 (frameLayout function).saveBase (frameLayout function).frameSize
      (frameLayout function).csrs

section Sound

variable {function : MFunction A64Op}

theorem csrs_perm (function : MFunction A64Op) :
    (frameLayout function).csrs.Perm function.usedCsrs := by
  refine ((mergeSort_perm _ _).append (mergeSort_perm _ _)).trans ?_
  have parts := filter_append_perm (isFprIndex ·) function.usedCsrs
  exact perm_append_comm.trans parts

theorem frameLayout_parts (function : MFunction A64Op) :
    (frameLayout function).saveBase = alignUp (BitVec.ofNat 64 (outgoingBytes function)) 16 ∧
      (frameLayout function).offsets = (placed (outgoingBytes function) 8
        (frameLayout function).csrs.length function.frameObjects).1 ∧
      (frameLayout function).frameSize = alignUp (placed (outgoingBytes function) 8
        (frameLayout function).csrs.length function.frameObjects).2 16 := by
  have isCount : (frameLayout function).csrs.length =
      (frameLayout function).gprCsrs.length + (frameLayout function).fprCsrs.length :=
    length_append
  have isBase : (frameLayout function).saveBase =
      alignUp (BitVec.ofNat 64 (outgoingBytes function)) 16 := outgoing_word function
  refine ⟨isBase, ?_, ?_⟩
  · rw [placed, ← isBase, isCount]
    rfl
  · rw [placed, ← isBase, isCount]
    rfl

theorem frameAddr_run (layout : FrameLayout) {Mem : Type} (accesses : Accesses Mem)
    {state : MachineState Mem} (atFrame : AtFrame layout base state) (dst index : Nat) :
    ∃ after, execAll accesses layout base
        (lowerInst layout ⟨.frameAddr, 0, [regOp dst, .frame index 0]⟩) state = some after ∧
      after.word dst = base + layout.offset index := by
  obtain ⟨direct, lowered, runsDirect, runsLowered, -, keeps⟩ :=
    (preserved_frameAddr layout False 0 dst index 0).mpr (fun lost => lost.2.2) Mem accesses base
      state atFrame
  refine ⟨lowered, runsLowered, ?_⟩
  have isDirect : direct = state.setWord dst (base + layout.offset index) := by
    have isSum : base + layout.offset index + BitVec.ofInt 64 0 = base + layout.offset index :=
      BitVec.add_zero _
    rw [← isSum]
    exact (Option.some.inj runsDirect).symm
  rw [MachineState.word, keeps dst fun isX16 => .inl (by rw [isX16]; rfl), isDirect]
  exact MachineState.word_setWord_self _ _ _

theorem sp_not_saved (inputs : FrameInputs isCalleeSavedReg function) :
    SP ∉ (frameLayout function).csrs := by
  intro member
  have isSaved := inputs.csrs SP ((csrs_perm function).mem_iff.mp member)
  exact absurd isSaved (by decide)

theorem opens_prologue {layout : FrameLayout} (reaches : layout.ReachesSlots) :
    Opens layout (prologue layout) := by
  intro loaded state base
  apply prologue_run layout loaded ?_ reaches
  rw [BitVec.sub_add_cancel, BitVec.sub_add_cancel]

/-- A prologue that runs reaches its slots; with pairs it always does. -/
theorem reaches_of_opens {layout : FrameLayout} (opens : Opens layout (prologue layout))
    (pairs : layout.savePairs = true → layout.ReachesSlots) : layout.ReachesSlots := by
  cases single : layout.savePairs with
  | true => exact pairs single
  | false =>
    obtain ⟨after, runs, -⟩ := opens (fun _ => 0) ⟨fun _ => 0, []⟩
    rw [prologue, runAll_append] at runs
    obtain ⟨opened, -, runsSaves⟩ := bind_eq_some_iff.mp runs
    rw [FrameLayout.ReachesSlots, single, if_neg Bool.false_ne_true]
    exact inReach_of_runAll_accessCsrs single runsSaves

theorem closes_epilogue {layout : FrameLayout} (reaches : layout.ReachesSlots)
    (notSp : SP ∉ layout.csrs) {inst : MInst A64Op} (isEnd : isEpilogue inst.opcode = true) :
    Closes layout (lowerInst layout inst) := by
  intro loaded base state atFrame
  have ends := fun tailBranch => epilogue_run layout loaded reaches tailBranch atFrame notSp
  obtain ⟨opcode, aux, operands⟩ := inst
  rcases Bool.or_eq_true_iff.mp isEnd with isRet | isTail
  · cases beq_iff_eq.mp isRet
    have lowered : lowerInst layout ⟨.epilogueRet, aux, operands⟩ = epilogue layout false := by
      simp [lowerInst]
    rw [lowered]
    exact ends false
  · cases beq_iff_eq.mp isTail
    have lowered : lowerInst layout ⟨.epilogueTailBr, aux, operands⟩ = epilogue layout true := by
      simp [lowerInst]
    rw [lowered]
    exact ends true

/-- Pairs are used where the save area ends in their reach. -/
theorem slots_near_of_savePairs
    (fits : frameBytes (outgoingBytes function) 8 function.usedCsrs.length function.frameObjects <
      2 ^ 64) (pairs : (frameLayout function).savePairs = true) :
    roundUp (outgoingBytes function) 16 + 8 * function.usedCsrs.length ≤ 504 := by
  obtain ⟨isBase, -, -⟩ := frameLayout_parts function
  have isPairs : (frameLayout function).savePairs = decide
      (alignUp (BitVec.ofNat 64 (outgoingBytes function)) 16 +
        alignUp (BitVec.ofNat 64 (8 * (frameLayout function).csrs.length)) 16 ≤ 504) := by
    rw [← isBase, FrameLayout.csrs, length_append]
    rfl
  have baseFits := le_objectsEnd function.frameObjects
    (objectsBase (outgoingBytes function) 8 function.usedCsrs.length)
  have lastFits : objectsEnd _ _ ≤
      frameBytes (outgoingBytes function) 8 function.usedCsrs.length function.frameObjects :=
    le_roundUp (by decide)
  have isSum : (roundUp (outgoingBytes function) 16 +
      roundUp (8 * function.usedCsrs.length) 16) % 2 ^ 64 =
        objectsBase (outgoingBytes function) 8 function.usedCsrs.length :=
    Nat.mod_eq_of_lt ((baseFits.trans lastFits).trans_lt fits)
  have slotsEnd : 8 * function.usedCsrs.length ≤ roundUp (8 * function.usedCsrs.length) 16 :=
    le_roundUp (by decide)
  rw [isPairs, decide_eq_true_iff, (csrs_perm function).length_eq, alignUp_sixteen,
    alignUp_sixteen, ← BitVec.ofNat_add, BitVec.le_def, BitVec.toNat_ofNat, isSum,
    objectsBase] at pairs
  exact (Nat.add_le_add_left slotsEnd _).trans pairs

/-- Slots of a frame that has a size are reached as far as their offsets go. -/
theorem reachesSlots_iff (inputs : FrameInputs isCalleeSavedReg function)
    (fits : frameBytes (outgoingBytes function) 8 function.usedCsrs.length function.frameObjects <
      2 ^ 64) :
    (frameLayout function).ReachesSlots ↔ function.usedCsrs = [] ∨
      roundUp (outgoingBytes function) 16 + 8 * function.usedCsrs.length ≤ 32768 := by
  obtain ⟨isBase, -, -⟩ := frameLayout_parts function
  have isCount := (csrs_perm function).length_eq
  have isEmpty : function.usedCsrs = [] ↔ function.usedCsrs.length = 0 := length_eq_zero_iff.symm
  have bounded := outgoingBytes_lt inputs
  have slots := fun index (isSlot : index < function.usedCsrs.length) =>
    slots_inside bounded fits (fun area member =>
      (areas_fit bounded inputs.objects fits).inside area (.tail _ (mem_append_left _ member)))
      isSlot
  obtain ⟨units, isWhole⟩ : 16 ∣ roundUp (outgoingBytes function) 16 := dvd_roundUp
  have atSlot : ∀ bound, InReach bound (frameLayout function).saveBase
      (frameLayout function).csrs ↔ function.usedCsrs.length = 0 ∨
        roundUp (outgoingBytes function) 16 + 8 * function.usedCsrs.length ≤ bound + 8 := by
    intro bound
    have pointwise := @forall_slotsFrom 8 (frameLayout function).saveBase
      (frameLayout function).csrs (fun slot => 8 ∣ slot.toNat ∧ slot.toNat ≤ bound)
    rw [InReach, pointwise, isCount, isBase]
    constructor
    · intro all
      cases count : function.usedCsrs.length with
      | zero => exact .inl rfl
      | succ last =>
        have isLast : last < function.usedCsrs.length := count ▸ Nat.lt_succ_self last
        have below := (all last isLast).2
        rw [(slots last isLast).1] at below
        omega
    · intro enough index isSlot
      rw [(slots index isSlot).1]
      omega
  rw [FrameLayout.ReachesSlots, atSlot, isEmpty]
  split
  case isFalse => exact Iff.rfl
  case isTrue pairs =>
    have near := slots_near_of_savePairs fits pairs
    constructor <;> intro _ <;> exact .inr (by omega)

/-- A layout is sound exactly when no object needs more alignment than the stack
pointer has, the frame has a size, the distances fit in 32 bits and stores reach
the slots. -/
theorem frameSound_iff (inputs : FrameInputs isCalleeSavedReg function) :
    FrameSound function ↔
      ((∀ object ∈ function.frameObjects, object.align ≤ 16) ∧
      frameBytes (outgoingBytes function) 8 function.usedCsrs.length function.frameObjects <
        2 ^ 64 ∧
      (function.usedCsrs = [] ∨
        frameBytes (outgoingBytes function) 8 function.usedCsrs.length function.frameObjects + 16 ≤
          2 ^ 31 + roundUp (outgoingBytes function) 16)) ∧
      (function.blocks = [] ∨ function.usedCsrs = [] ∨
        roundUp (outgoingBytes function) 16 + 8 * function.usedCsrs.length ≤ 32768) := by
  obtain ⟨isBase, isOffsets, isSize⟩ := frameLayout_parts function
  have bounded := outgoingBytes_lt inputs
  have perm := csrs_perm function
  have isCount := perm.length_eq
  have isEmpty : function.usedCsrs = [] ↔ (frameLayout function).csrs = [] := by
    rw [← length_eq_zero_iff, ← isCount, length_eq_zero_iff]
  have multiple : 16 ∣ (frameLayout function).frameSize.toNat :=
    isSize ▸ sixteen_dvd_frameSize inputs.objects
  have parts := @layout_iff _ 8 _ 16 (frameLayout function).csrs bounded (by decide) inputs.objects (.inr rfl)
  dsimp only at parts
  rw [← isBase, ← isOffsets, ← isSize, isCount, ← isEmpty] at parts
  have notSp := sp_not_saved inputs
  rw [← parts]
  constructor
  · intro sound
    have fit := isCount ▸ sound.areas
    have aligned : ∀ base : Word, 16 ∣ base.toNat + 16 → ∀ index object,
        function.frameObjects[index]? = some object →
        object.align ∣ (base + (frameLayout function).offset index).toNat := by
      intro base isAligned index object isObject
      have isSp : base + (frameLayout function).frameSize + 16 - 16 -
          (frameLayout function).frameSize = base := by
        rw [BitVec.add_sub_cancel, BitVec.add_sub_cancel]
      rw [← isSp] at isAligned
      have isMultiple := sound.aligned _ index object ((base_iff multiple).mpr isAligned) isObject
      rwa [isSp] at isMultiple
    have sized := And.intro fit (And.intro aligned sound.recorded)
    refine ⟨sized, ?_⟩
    cases blocks : function.blocks with
    | nil => exact .inl rfl
    | cons entry rest =>
      have isEntry : function.blocks[0]? = some entry := by rw [blocks]; rfl
      obtain ⟨opening, isLowered, opens⟩ := sound.lowered 0 entry isEntry
      rw [lowerFrame_block function isEntry, if_pos rfl] at isLowered
      have isOpening := append_cancel_right (MBlock.mk.inj (Option.some.inj isLowered)).1
      rw [if_pos rfl, ← isOpening] at opens
      have fits := (parts.mp sized).2.1
      refine .inr ((reachesSlots_iff inputs fits).mp (reaches_of_opens opens fun pairs => ?_))
      have near := slots_near_of_savePairs fits pairs
      exact (reachesSlots_iff inputs fits).mpr (.inr (by omega))
  · rintro ⟨⟨fit, aligned, recorded⟩, reached⟩
    have fits := (parts.mp ⟨fit, aligned, recorded⟩).2.1
    have reaches := fun (isEntry : function.blocks ≠ []) =>
      (reachesSlots_iff inputs fits).mpr (reached.resolve_left isEntry)
    refine ⟨isCount ▸ fit, perm, ?_, ?_, ?_, ?_, recorded⟩
    · intro sp index object isAligned isObject
      exact aligned _ ((base_iff multiple).mp isAligned) index object isObject
    · intro k block isBlock
      refine ⟨_, lowerFrame_block function isBlock, ?_⟩
      split
      case isTrue =>
        apply opens_prologue (reaches ?_)
        intro none
        rw [none] at isBlock
        cases isBlock
      case isFalse => rfl
    · intro Mem accesses base state dst index atFrame
      exact frameAddr_run (frameLayout function) accesses atFrame dst index
    · intro block member inst inside isEnd
      exact closes_epilogue (reaches (ne_nil_of_mem member)) notSp isEnd

end Sound

end Aburi.Backend.AArch64
