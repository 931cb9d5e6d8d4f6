import Aburi.Backend.FrameAreas
import Aburi.Backend.X86.Frame

/-!
# Saved registers of an x86 frame

The prologue and the epilogues are run on a machine that records which
registers are saved and restored at which addresses.
-/

namespace Aburi.Backend.X86

open Aburi.Backend.AArch64 (Word alignUp regOp immOp)

structure SavingState where
  regs : Nat → Word
  log : List SlotAccess

namespace SavingState

def set (state : SavingState) (r : Nat) (value : Word) : SavingState :=
  { state with regs := Function.update state.regs r value }

@[simp] theorem regs_set_self (state : SavingState) (r : Nat) (value : Word) :
    (state.set r value).regs r = value := by
  simp [set]

theorem regs_set_ne (state : SavingState) {r other : Nat} (value : Word) (differ : other ≠ r) :
    (state.set r value).regs other = state.regs other := by
  simp [set, differ]

@[simp] theorem log_set (state : SavingState) (r : Nat) (value : Word) :
    (state.set r value).log = state.log := rfl

def save (state : SavingState) (width phys : Nat) (target : Word) : SavingState :=
  { state with log := state.log ++ [.save width phys target] }

def restore (loaded : Word → Word) (state : SavingState) (width phys : Nat) (target : Word) :
    SavingState :=
  set { state with log := state.log ++ [SlotAccess.restore width phys target] } phys (loaded target)

end SavingState

open SavingState List Option

/-- What fits in the 32 bits of an immediate or a displacement.  Long mode extends
their sign; in 32-bit code they are as wide as a register. -/
def IsImmediate (legacy32 : Bool) (value : Int) : Prop :=
  -2 ^ 31 ≤ value ∧ value < if legacy32 then 2 ^ 32 else 2 ^ 31

instance (legacy32 : Bool) (value : Int) : Decidable (IsImmediate legacy32 value) :=
  inferInstanceAs (Decidable (_ ∧ _))

def immediateLimit (legacy32 : Bool) : Nat := if legacy32 then 2 ^ 32 else 2 ^ 31

theorem isImmediate_iff {legacy32 : Bool} {value : Int} (lower : 0 ≤ value) :
    IsImmediate legacy32 value ↔ value < immediateLimit legacy32 := by
  cases legacy32 <;> simp [IsImmediate, immediateLimit] <;> omega

theorem isImmediate_size {legacy32 : Bool} {size : Word} :
    0 ≤ size.toInt ∧ IsImmediate legacy32 size.toInt ↔ size.toNat < immediateLimit legacy32 := by
  have bounded := size.isLt
  have small : immediateLimit legacy32 ≤ 2 ^ 32 := by cases legacy32 <;> decide
  constructor
  · rintro ⟨lower, encodes⟩
    rw [isImmediate_iff lower, BitVec.toInt_eq_toNat_cond] at encodes
    rw [BitVec.toInt_eq_toNat_cond] at lower
    split at encodes <;> omega
  · intro below
    have same : size.toInt = size.toNat := by
      rw [BitVec.toInt_eq_toNat_cond]
      split <;> omega
    have lower : 0 ≤ size.toInt := by omega
    exact ⟨lower, (isImmediate_iff lower).mpr (by omega)⟩

theorem immediateLimit_le (legacy32 : Bool) : immediateLimit legacy32 ≤ 2 ^ 32 := by
  cases legacy32 <;> decide

section

variable {legacy32 : Bool} {offset size : Word} (small : size.toNat < immediateLimit legacy32)
  (inside : offset.toNat < size.toNat)
include small inside

theorem isImmediate_inside : IsImmediate legacy32 offset.toInt :=
  (isImmediate_size.mpr (inside.trans small)).2

theorem isImmediate_below :
    IsImmediate legacy32 (offset - size).toInt ↔ size.toNat ≤ 2 ^ 31 + offset.toNat := by
  have bounded := immediateLimit_le legacy32
  have isDistance : (offset - size).toInt = (offset.toNat : Int) - size.toNat := by
    rw [BitVec.toInt_eq_toNat_cond, BitVec.toNat_sub]
    split <;> omega
  rw [IsImmediate, isDistance]
  cases legacy32 <;> simp <;> omega

end

section Runs

variable (layout : FrameLayout) (loaded : Word → Word)

/-- The instructions of prologues and epilogues, and address computations, as far
as their immediates can be encoded.  Frames are opened downwards.  The addresses
of 32-bit code are words below 2 ^ 32. -/
def runInst (inst : MInst X86Op) (state : SavingState) : Option SavingState :=
  match inst.opcode, inst.operands with
  | .pushR, [.reg (.phys r)] =>
    let target := state.regs RSP - BitVec.ofNat 64 layout.word
    some ((state.save layout.word r target).set RSP target)
  | .popR, [.reg (.phys r)] =>
    let target := state.regs RSP
    some ((restore loaded state layout.word r target).set RSP
      (target + BitVec.ofNat 64 layout.word))
  | .movRR64, [.reg (.phys d), .reg (.phys source)] => some (state.set d (state.regs source))
  | .subI64, [.reg (.phys d), .imm value] =>
    if 0 ≤ value ∧ IsImmediate layout.legacy32 value then
      some (state.set d (state.regs d - BitVec.ofInt 64 value))
    else none
  | .leaMem, [.reg (.phys d), .reg (.phys base), .imm value] =>
    if IsImmediate layout.legacy32 value then
      some (state.set d (state.regs base + BitVec.ofInt 64 value))
    else none
  | .store64, [.reg (.phys r), .reg (.phys base), .imm value] =>
    if IsImmediate layout.legacy32 value then
      some (state.save 8 r (state.regs base + BitVec.ofInt 64 value))
    else none
  | .store32, [.reg (.phys r), .reg (.phys base), .imm value] =>
    if IsImmediate layout.legacy32 value then
      some (state.save 4 r (state.regs base + BitVec.ofInt 64 value))
    else none
  | .load64, [.reg (.phys r), .reg (.phys base), .imm value] =>
    if IsImmediate layout.legacy32 value then
      some (restore loaded state 8 r (state.regs base + BitVec.ofInt 64 value))
    else none
  | .load32, [.reg (.phys r), .reg (.phys base), .imm value] =>
    if IsImmediate layout.legacy32 value then
      some (restore loaded state 4 r (state.regs base + BitVec.ofInt 64 value))
    else none
  | .retQ, [] => some state
  | _, _ => none

def runAll (insts : List (MInst X86Op)) (state : SavingState) : Option SavingState :=
  insts.foldlM (fun state inst => runInst layout loaded inst state) state

theorem runAll_append (first second : List (MInst X86Op)) (state : SavingState) :
    runAll layout loaded (first ++ second) state =
      (runAll layout loaded first state).bind (runAll layout loaded second) := by
  simp only [runAll, foldlM_append]
  rfl

@[simp] theorem runAll_nil (state : SavingState) : runAll layout loaded [] state = some state := rfl

theorem runAll_cons (inst : MInst X86Op) (rest : List (MInst X86Op)) (state : SavingState) :
    runAll layout loaded (inst :: rest) state =
      (runInst layout loaded inst state).bind (runAll layout loaded rest) := rfl

theorem runInst_wordStore (phys base : Nat) {slot : Word}
    (encodes : IsImmediate layout.legacy32 slot.toInt) (state : SavingState) :
    runInst layout loaded
        { opcode := wordStore layout, operands := [regOp phys, regOp base, immOp slot] } state =
      some (state.save layout.word phys (state.regs base + slot)) := by
  rw [wordStore, FrameLayout.word]
  split <;> simp [runInst, regOp, immOp, encodes]

theorem runInst_wordLoad (phys base : Nat) {slot : Word}
    (encodes : IsImmediate layout.legacy32 slot.toInt) (state : SavingState) :
    runInst layout loaded
        { opcode := wordLoad layout, operands := [regOp phys, regOp base, immOp slot] } state =
      some (restore loaded state layout.word phys (state.regs base + slot)) := by
  rw [wordLoad, FrameLayout.word]
  split <;> simp [runInst, regOp, immOp, encodes]

/-- Slots from a displacement on, in the reach of an instruction. -/
def InReach (layout : FrameLayout) (slot : Word) (csrs : List Nat) : Prop :=
  ∀ entry ∈ slotsFrom layout.word slot csrs, IsImmediate layout.legacy32 entry.2.toInt

variable {layout}

theorem runAll_saves (base : Nat) {slot : Word} {csrs : List Nat}
    (reach : InReach layout slot csrs) (state : SavingState) :
    runAll layout loaded (accessWords layout (wordStore layout) base slot csrs) state =
      some { state with
        log := state.log ++
          saves layout.word (slotsFrom layout.word (state.regs base + slot) csrs) } := by
  induction csrs generalizing slot state with
  | nil => simp [runAll, accessWords, saves, slotsFrom]
  | cons phys rest ih =>
    obtain ⟨here, later⟩ := forall_mem_cons.mp reach
    rw [accessWords, runAll_cons, runInst_wordStore layout loaded phys base here, bind_some,
      ih later, slotsFrom, ← BitVec.add_assoc]
    simp [SavingState.save, saves]

theorem runAll_restores {base : Nat} {slot : Word} {csrs : List Nat}
    (reach : InReach layout slot csrs) (apart : base ∉ csrs) (state : SavingState) :
    ∃ after, runAll layout loaded (accessWords layout (wordLoad layout) base slot csrs) state =
        some after ∧
      after.log = state.log ++
        restores layout.word (slotsFrom layout.word (state.regs base + slot) csrs) ∧
      after.regs base = state.regs base := by
  induction csrs generalizing slot state with
  | nil => exact ⟨state, rfl, by simp [restores, slotsFrom], rfl⟩
  | cons phys rest ih =>
    obtain ⟨here, later⟩ := forall_mem_cons.mp reach
    rw [mem_cons, not_or] at apart
    have keeps := regs_set_ne
      { state with log := state.log ++ [.restore layout.word phys (state.regs base + slot)] }
      (loaded (state.regs base + slot)) apart.1
    obtain ⟨after, runs, log, sameBase⟩ := ih later apart.2
      (restore loaded state layout.word phys (state.regs base + slot))
    refine ⟨after, ?_, ?_, sameBase.trans keeps⟩
    · rw [accessWords, runAll_cons, runInst_wordLoad layout loaded phys base here, bind_some, runs]
    · rw [log, SavingState.restore, keeps, slotsFrom, ← BitVec.add_assoc]
      simp [restores]

end Runs

/-- The frame pointer lies behind the frame; the stack pointer stays at its
base where the stack does not grow. -/
def AtFrame (layout : FrameLayout) (base : Word) (state : SavingState) : Prop :=
  state.regs RBP = base + layout.frameSize ∧ (layout.dynamic = false → state.regs RSP = base)

def savedSlots (layout : FrameLayout) (base : Word) : List (Nat × Word) :=
  slotsFrom layout.word (base + layout.saveBase) layout.csrs

/-- The frame pointer of the caller, behind the frame. -/
def frameRecord (layout : FrameLayout) (base : Word) : List (Nat × Word) :=
  [(RBP, base + layout.frameSize)]

variable {state : SavingState}

section

variable (layout : FrameLayout) (loaded : Word → Word) {base : Word}
  (entry : state.regs RSP = base + layout.frameSize + BitVec.ofNat 64 layout.word)
  (small : layout.frameSize.toNat < immediateLimit layout.legacy32)
include layout loaded entry small

theorem open_run :
    ∃ after, runAll layout loaded
        ([{ opcode := .pushR, operands := [regOp RBP] },
          { opcode := .movRR64, operands := [regOp RBP, regOp RSP] }] ++
          (if layout.frameSize ≠ 0 then
            [{ opcode := .subI64, operands := [regOp RSP, immOp layout.frameSize] }]
          else [])) state = some after ∧
      after.log = state.log ++ saves layout.word (frameRecord layout base) ∧
      after.regs RBP = base + layout.frameSize ∧ after.regs RSP = base := by
  have below : state.regs RSP - BitVec.ofNat 64 layout.word = base + layout.frameSize := by
    rw [entry, BitVec.add_sub_cancel]
  let pushed : SavingState := ((state.save layout.word RBP (base + layout.frameSize)).set RSP
    (base + layout.frameSize)).set RBP (base + layout.frameSize)
  have runsPush : runAll layout loaded
      [{ opcode := .pushR, operands := [regOp RBP] },
        { opcode := .movRR64, operands := [regOp RBP, regOp RSP] }] state = some pushed := by
    simp [runAll_cons, runInst, regOp, below, pushed]
  have pushedSp : pushed.regs RSP = base + layout.frameSize := by
    rw [regs_set_ne _ _ (by decide), regs_set_self]
  rw [runAll_append, runsPush, bind_some]
  split
  case isTrue =>
    refine ⟨pushed.set RSP base, ?_, by rfl, ?_, regs_set_self _ _ _⟩
    · have isBase : pushed.regs RSP - layout.frameSize = base := by
        rw [pushedSp, BitVec.add_sub_cancel]
      have encodes := isImmediate_size.mpr small
      simp [runAll_cons, runInst, regOp, immOp, isBase, encodes]
    · rw [regs_set_ne _ _ (by decide)]
      exact regs_set_self _ _ _
  case isFalse isZero =>
    refine ⟨pushed, rfl, by rfl, regs_set_self _ _ _, ?_⟩
    rw [pushedSp, not_not.mp isZero]
    exact BitVec.add_zero _

theorem prologue_run (reach : InReach layout layout.saveBase layout.csrs) :
    ∃ after, runAll layout loaded (prologue layout) state = some after ∧
      after.log = state.log ++
        saves layout.word (frameRecord layout base ++ savedSlots layout base) ∧
      AtFrame layout base after := by
  obtain ⟨opened, runs, log, isFp, isBase⟩ := open_run layout loaded entry small
  refine ⟨{ opened with log := opened.log ++ saves layout.word (savedSlots layout base) }, ?_, ?_,
    isFp, fun _ => isBase⟩
  · rw [prologue, runAll_append, runs, bind_some, runAll_saves loaded _ reach, isBase]
    rfl
  · rw [log, saves_append, ← append_assoc]

end

theorem epilogue_run (layout : FrameLayout) (loaded : Word → Word) {base : Word}
    (atFrame : AtFrame layout base state) (apart : RBP ∉ layout.csrs)
    (reach : InReach layout (layout.saveBase - layout.frameSize) layout.csrs) :
    ∃ after, runAll layout loaded (epilogue layout) state = some after ∧
      after.log = state.log ++
        restores layout.word (savedSlots layout base ++ frameRecord layout base) ∧
      after.regs RSP = base + layout.frameSize + BitVec.ofNat 64 layout.word := by
  obtain ⟨restored, runs, log, sameFp⟩ := runAll_restores loaded reach apart state
  have start : state.regs RBP + (layout.saveBase - layout.frameSize) = base + layout.saveBase := by
    rw [atFrame.1, BitVec.add_assoc, BitVec.add_comm layout.frameSize, BitVec.sub_add_cancel]
  refine ⟨(restore loaded (restored.set RSP (base + layout.frameSize)) layout.word RBP
    (base + layout.frameSize)).set RSP
      (base + layout.frameSize + BitVec.ofNat 64 layout.word), ?_, ?_, regs_set_self _ _ _⟩
  · rw [epilogue, runAll_append, runs, bind_some]
    simp [runAll_cons, runInst, regOp, sameFp, atFrame.1]
  · rw [restores_append, ← append_assoc, savedSlots, ← start, ← log]
    rfl

/-- The registers that the allocator marks as used and has to save. -/
def savedByAllocator (legacy32 : Bool) (phys : Nat) : Bool :=
  if legacy32 then gprOrder32.contains phys && isCalleeSavedReg32 phys
  else gprOrder.contains phys && isCalleeSavedReg phys

/-- As on AArch64, with the stack pointer at the call above the return address. -/
def Opens (layout : FrameLayout) (insts : List (MInst X86Op)) : Prop :=
  ∀ (loaded : Word → Word) (state : SavingState),
    let base := state.regs RSP - BitVec.ofNat 64 layout.word - layout.frameSize
    ∃ after, runAll layout loaded insts state = some after ∧
      after.log = state.log ++
        saves layout.word (frameRecord layout base ++ savedSlots layout base) ∧
      AtFrame layout base after

def Closes (layout : FrameLayout) (insts : List (MInst X86Op)) : Prop :=
  ∀ (loaded : Word → Word) (base : Word) (state : SavingState), AtFrame layout base state →
    ∃ after, runAll layout loaded insts state = some after ∧
      after.log = state.log ++
        restores layout.word (savedSlots layout base ++ frameRecord layout base) ∧
      after.regs RSP = base + layout.frameSize + BitVec.ofNat 64 layout.word

/-- As on AArch64.  Objects are found in functions with code. -/
structure FrameSound (legacy32 : Bool) (function : MFunction X86Op) : Prop where
  areas :
    let layout := frameLayout legacy32 function
    AreasFit (frameAreas layout.saveBase layout.word layout.csrs.length layout.offsets
      function.frameObjects) layout.frameSize.toNat
  registers : (frameLayout legacy32 function).csrs.Perm function.usedCsrs
  aligned : ∀ (sp : Word) (index : Nat) (object : FrameObject),
    let layout := frameLayout legacy32 function
    16 ∣ sp.toNat → function.frameObjects[index]? = some object →
    object.align ∣ (sp - BitVec.ofNat 64 layout.below - layout.frameSize +
      layout.offset index).toNat
  lowered : ∀ k (block : MBlock X86Op), function.blocks[k]? = some block →
    let layout := frameLayout legacy32 function
    ∃ opening, (lowerFrame legacy32 function).blocks[k]? = some { block with
        insts := opening ++ block.insts.flatMap (lowerInst layout) } ∧
      if k = 0 then Opens layout opening else opening = []
  found : ∀ block ∈ function.blocks, ∀ (loaded : Word → Word) (base : Word) (state : SavingState)
    (dst index : Nat) (object : FrameObject),
    let layout := frameLayout legacy32 function
    AtFrame layout base state → function.frameObjects[index]? = some object →
    runAll layout loaded (lowerInst layout ⟨.frameAddr, 0, [regOp dst, .frame index 0]⟩) state =
      some (state.set dst (base + layout.offset index))
  closed : ∀ block ∈ function.blocks, ∀ inst ∈ block.insts, inst.opcode = .epilogueRet →
    let layout := frameLayout legacy32 function
    Closes layout (lowerInst layout inst)
  recorded :
    let layout := frameLayout legacy32 function
    (lowerFrame legacy32 function).csrCfaOffsets =
      slotDistances layout.word layout.below layout.saveBase layout.frameSize layout.csrs

/-- Blocks are lowered instruction by instruction, behind the prologue in the
first one. -/
theorem lowerFrame_block (legacy32 : Bool) (function : MFunction X86Op) {k : Nat}
    {block : MBlock X86Op} (found : function.blocks[k]? = some block) :
    let layout := frameLayout legacy32 function
    (lowerFrame legacy32 function).blocks[k]? =
      some { block with insts := (if k = 0 then prologue layout else []) ++
        block.insts.flatMap (lowerInst layout) } := by
  intro layout
  rw [lowerFrame]
  cases blocks : function.blocks with
  | nil => simp [blocks] at found
  | cons entry rest =>
    rw [blocks] at found
    cases k with
    | zero =>
      cases found
      simp [lowerBlock, layout]
    | succ k =>
      have later : rest[k]? = some block := by simpa using found
      simp [lowerBlock, later, layout]

section Sound

variable {legacy32 : Bool} {function : MFunction X86Op}

theorem frameLayout_parts (legacy32 : Bool) (function : MFunction X86Op) :
    (frameLayout legacy32 function).saveBase =
        alignUp (BitVec.ofNat 64 (outgoingBytes function)) 16 ∧
      (frameLayout legacy32 function).offsets = (placed (outgoingBytes function)
        (frameLayout legacy32 function).word (frameLayout legacy32 function).csrs.length
        function.frameObjects).1 ∧
      (frameLayout legacy32 function).frameSize = alignUp (placed (outgoingBytes function)
        (frameLayout legacy32 function).word (frameLayout legacy32 function).csrs.length
        function.frameObjects).2 16 := by
  have isBase : (frameLayout legacy32 function).saveBase =
      alignUp (BitVec.ofNat 64 (outgoingBytes function)) 16 := outgoing_word function
  refine ⟨isBase, ?_, ?_⟩
  · rw [placed, ← isBase]
    rfl
  · rw [placed, ← isBase]
    rfl

theorem rbp_not_saved (inputs : FrameInputs (savedByAllocator legacy32) function) :
    RBP ∉ (frameLayout legacy32 function).csrs := by
  intro member
  have isSaved := inputs.csrs RBP ((mergeSort_perm _ _).mem_iff.mp member)
  cases legacy32 <;> exact absurd isSaved (by decide)

section Code

variable {layout : FrameLayout}

theorem opens_prologue (small : layout.frameSize.toNat < immediateLimit layout.legacy32)
    (reach : InReach layout layout.saveBase layout.csrs) : Opens layout (prologue layout) := by
  intro loaded state base
  apply prologue_run layout loaded ?_ small reach
  rw [BitVec.sub_add_cancel, BitVec.sub_add_cancel]

/-- A prologue only runs where the size of the frame can be encoded. -/
theorem small_of_opens (opens : Opens layout (prologue layout)) :
    layout.frameSize.toNat < immediateLimit layout.legacy32 := by
  by_cases isZero : layout.frameSize = 0
  · rw [isZero]
    cases layout.legacy32 <;> decide
  · obtain ⟨after, runs, -⟩ := opens id ⟨fun _ => 0, []⟩
    rw [prologue, if_pos isZero, runAll_append] at runs
    obtain ⟨opened, runsOpen, -⟩ := bind_eq_some_iff.mp runs
    rw [runAll_append] at runsOpen
    obtain ⟨pushed, -, runsSub⟩ := bind_eq_some_iff.mp runsOpen
    by_contra large
    have refused : runInst layout id
        { opcode := .subI64, operands := [regOp RSP, immOp layout.frameSize] } pushed = none :=
      if_neg fun encodes => large (isImmediate_size.mp encodes)
    rw [runAll_cons, refused] at runsSub
    cases runsSub

theorem closes_epilogue (apart : RBP ∉ layout.csrs)
    (reach : InReach layout (layout.saveBase - layout.frameSize) layout.csrs) {inst : MInst X86Op}
    (isEnd : inst.opcode = .epilogueRet) : Closes layout (lowerInst layout inst) := by
  intro loaded base state atFrame
  obtain ⟨opcode, aux, operands⟩ := inst
  cases isEnd
  have lowered : lowerInst layout ⟨.epilogueRet, aux, operands⟩ = epilogue layout := by
    simp [lowerInst]
  rw [lowered]
  exact epilogue_run layout loaded atFrame apart reach

/-- An object at an offset, seen from the register that it is addressed with. -/
def FrameLayout.displacement (layout : FrameLayout) (offset : Word) : Word :=
  if layout.dynamic then offset - layout.frameSize else offset

theorem frameAddr_run (layout : FrameLayout) (loaded : Word → Word) {base : Word}
    (atFrame : AtFrame layout base state) (dst index : Nat) :
    runAll layout loaded (lowerInst layout ⟨.frameAddr, 0, [regOp dst, .frame index 0]⟩) state =
      if IsImmediate layout.legacy32 (layout.displacement (layout.offset index)).toInt then
        some (state.set dst (base + layout.offset index))
      else none := by
  have noDisplacement : layout.offset index + BitVec.ofInt 64 0 = layout.offset index :=
    BitVec.add_zero _
  simp only [lowerInst, regOp]
  rw [noDisplacement, frameOperands, FrameLayout.displacement]
  split
  case isTrue =>
    have isAddress : state.regs RBP + (layout.offset index - layout.frameSize) =
        base + layout.offset index := by
      rw [atFrame.1, BitVec.add_assoc, BitVec.add_comm layout.frameSize, BitVec.sub_add_cancel]
    generalize layout.offset index - layout.frameSize = distance at isAddress
    by_cases encodes : IsImmediate layout.legacy32 distance.toInt <;>
      simp [runAll_cons, runInst, regOp, immOp, isAddress, encodes]
  case isFalse isStatic =>
    have isBase := atFrame.2 (Bool.eq_false_iff.mpr isStatic)
    by_cases encodes : IsImmediate layout.legacy32 (layout.offset index).toInt <;>
      simp [runAll_cons, runInst, regOp, immOp, isBase, encodes]

end Code

theorem slot_toNat (inputs : FrameInputs (savedByAllocator legacy32) function) {word : Nat}
    (fits : frameBytes (outgoingBytes function) word function.usedCsrs.length
      function.frameObjects < 2 ^ 64) {index : Nat} (isSlot : index < function.usedCsrs.length) :
    ((frameLayout legacy32 function).saveBase + BitVec.ofNat 64 (word * index)).toNat =
        roundUp (outgoingBytes function) 16 + word * index ∧
      roundUp (outgoingBytes function) 16 + word * index + word ≤ frameBytes
        (outgoingBytes function) word function.usedCsrs.length function.frameObjects := by
  rw [(frameLayout_parts legacy32 function).1]
  apply slots_inside (outgoingBytes_lt inputs) fits ?_ isSlot
  intro area member
  exact (areas_fit (outgoingBytes_lt inputs) inputs.objects fits).inside area
    (.tail _ (mem_append_left _ member))

theorem inReach_saves {layout : FrameLayout} (positive : 0 < layout.word)
    (small : layout.frameSize.toNat < immediateLimit layout.legacy32)
    (inside : ∀ index < layout.csrs.length,
      (layout.saveBase + BitVec.ofNat 64 (layout.word * index)).toNat + layout.word ≤
        layout.frameSize.toNat) : InReach layout layout.saveBase layout.csrs := by
  have pointwise := @forall_slotsFrom layout.word layout.saveBase layout.csrs
    (fun slot => IsImmediate layout.legacy32 slot.toInt)
  refine pointwise.mpr fun index isSlot => ?_
  have ends := inside index isSlot
  exact isImmediate_inside small (by omega)

theorem inReach_restores {layout : FrameLayout} (positive : 0 < layout.word)
    (small : layout.frameSize.toNat < immediateLimit layout.legacy32)
    (inside : ∀ index < layout.csrs.length,
      (layout.saveBase + BitVec.ofNat 64 (layout.word * index)).toNat + layout.word ≤
        layout.frameSize.toNat)
    (near : ∀ index < layout.csrs.length, layout.frameSize.toNat ≤
      2 ^ 31 + (layout.saveBase + BitVec.ofNat 64 (layout.word * index)).toNat) :
    InReach layout (layout.saveBase - layout.frameSize) layout.csrs := by
  have pointwise := @forall_slotsFrom layout.word (layout.saveBase - layout.frameSize) layout.csrs
    (fun slot => IsImmediate layout.legacy32 slot.toInt)
  refine pointwise.mpr fun index isSlot => ?_
  have ends := inside index isSlot
  have moved : layout.saveBase - layout.frameSize + BitVec.ofNat 64 (layout.word * index) =
      layout.saveBase + BitVec.ofNat 64 (layout.word * index) - layout.frameSize := by
    rw [BitVec.sub_eq_add_neg, BitVec.sub_eq_add_neg, BitVec.add_assoc, BitVec.add_comm (-_),
      ← BitVec.add_assoc]
  rw [moved]
  exact (isImmediate_below small (by omega)).mpr (near index isSlot)

theorem offset_eq_placed (legacy32 : Bool) (function : MFunction X86Op) (index : Nat) :
    (frameLayout legacy32 function).offset index = (placed (outgoingBytes function)
      (frameLayout legacy32 function).word function.usedCsrs.length
        function.frameObjects).1.getD index 0 := by
  have perm : (frameLayout legacy32 function).csrs.Perm function.usedCsrs := mergeSort_perm _ _
  rw [FrameLayout.offset, (frameLayout_parts legacy32 function).2.1, perm.length_eq]

section Reach

variable (inputs : FrameInputs (savedByAllocator legacy32) function)
  (fits : frameBytes (outgoingBytes function) (frameLayout legacy32 function).word
    function.usedCsrs.length function.frameObjects < 2 ^ 64)
include inputs fits

theorem frameSize_toNat : (frameLayout legacy32 function).frameSize.toNat =
    frameBytes (outgoingBytes function) (frameLayout legacy32 function).word
      function.usedCsrs.length function.frameObjects := by
  have perm : (frameLayout legacy32 function).csrs.Perm function.usedCsrs := mergeSort_perm _ _
  rw [(frameLayout_parts legacy32 function).2.2, perm.length_eq, frameSize_ofNat inputs.objects,
    BitVec.toNat_ofNat]
  exact Nat.mod_eq_of_lt fits

/-- An object is within the reach of the register that it is addressed with. -/
theorem reaches_iff (small : (frameLayout legacy32 function).frameSize.toNat <
      immediateLimit legacy32) {index start : Nat}
    (atIndex : (objectStarts (objectsBase (outgoingBytes function)
      (frameLayout legacy32 function).word function.usedCsrs.length)
        function.frameObjects)[index]? = some start) :
    IsImmediate legacy32 ((frameLayout legacy32 function).displacement
        ((frameLayout legacy32 function).offset index)).toInt ↔
      (function.hasDynamicStack = true →
        frameBytes (outgoingBytes function) (frameLayout legacy32 function).word
          function.usedCsrs.length function.frameObjects ≤ 2 ^ 31 + start) := by
  have isObject : index < function.frameObjects.length := by
    obtain ⟨inside, -⟩ := List.getElem?_eq_some_iff.mp atIndex
    rwa [length_objectStarts] at inside
  obtain ⟨start', atIndex', isOffset, below⟩ := offset_toNat inputs.objects fits isObject
  cases atIndex.symm.trans atIndex'
  have isInside : ((frameLayout legacy32 function).offset index).toNat <
      (frameLayout legacy32 function).frameSize.toNat := by
    rw [offset_eq_placed, isOffset, frameSize_toNat inputs fits]
    exact below
  have far := isImmediate_below small isInside
  rw [offset_eq_placed, isOffset, frameSize_toNat inputs fits] at far
  have isDynamic : (frameLayout legacy32 function).dynamic = function.hasDynamicStack := rfl
  rw [FrameLayout.displacement, offset_eq_placed, isDynamic]
  split
  case isTrue dynamic => exact far.trans ⟨fun near _ => near, fun near => near dynamic⟩
  case isFalse stays =>
    rw [← offset_eq_placed]
    exact iff_of_true (isImmediate_inside small isInside) fun dynamic => absurd dynamic stays

/-- The code of a sound frame opens it and finds its objects, so it reaches them. -/
theorem FrameSound.reaches (sound : FrameSound legacy32 function) {entry : MBlock X86Op}
    (isEntry : function.blocks[0]? = some entry) :
    (frameLayout legacy32 function).frameSize.toNat < immediateLimit legacy32 ∧
      (function.hasDynamicStack = true → ∀ start ∈ objectStarts
        (objectsBase (outgoingBytes function) (frameLayout legacy32 function).word
          function.usedCsrs.length) function.frameObjects,
        frameBytes (outgoingBytes function) (frameLayout legacy32 function).word
          function.usedCsrs.length function.frameObjects ≤ 2 ^ 31 + start) := by
  obtain ⟨opening, isLowered, opens⟩ := sound.lowered 0 entry isEntry
  rw [lowerFrame_block legacy32 function isEntry, if_pos rfl] at isLowered
  have isOpening := append_cancel_right (MBlock.mk.inj (Option.some.inj isLowered)).1
  rw [if_pos rfl, ← isOpening] at opens
  have small : (frameLayout legacy32 function).frameSize.toNat < immediateLimit legacy32 :=
    small_of_opens opens
  refine ⟨small, fun isDynamic start isStart => ?_⟩
  obtain ⟨index, atIndex⟩ := mem_iff_getElem?.mp isStart
  obtain ⟨inside, -⟩ := List.getElem?_eq_some_iff.mp atIndex
  rw [length_objectStarts] at inside
  let state : SavingState :=
    ⟨fun r => if r = RBP then (frameLayout legacy32 function).frameSize else 0, []⟩
  have atFrame : AtFrame (frameLayout legacy32 function) 0 state :=
    ⟨(BitVec.zero_add _).symm, fun _ => rfl⟩
  have finds := sound.found entry (mem_of_getElem? isEntry) id 0 state 0 index _ atFrame
    (getElem?_eq_getElem inside)
  rw [frameAddr_run _ _ atFrame] at finds
  split at finds
  case isTrue encodes => exact (reaches_iff inputs fits small atIndex).mp encodes isDynamic
  case isFalse => cases finds

end Reach

/-- A layout is sound exactly when no object needs more alignment than the stack
pointer has behind two words, the frame has a size, the distances fit, and, in
functions with code, the instructions reach the frame from both ends. -/
theorem frameSound_iff (inputs : FrameInputs (savedByAllocator legacy32) function) :
    let word := if legacy32 then 4 else 8
    let count := function.usedCsrs.length
    let bytes := frameBytes (outgoingBytes function) word count function.frameObjects
    FrameSound legacy32 function ↔
      ((∀ object ∈ function.frameObjects, object.align ≤ 2 * word) ∧ bytes < 2 ^ 64 ∧
      (function.usedCsrs = [] ∨
        bytes + 2 * word ≤ 2 ^ 31 + roundUp (outgoingBytes function) 16)) ∧
      (function.blocks = [] ∨ bytes < immediateLimit legacy32 ∧
        (function.hasDynamicStack = true → ∀ start ∈ objectStarts
          (objectsBase (outgoingBytes function) word count) function.frameObjects,
            bytes ≤ 2 ^ 31 + start)) := by
  intro word count bytes
  obtain ⟨isBase, isOffsets, isSize⟩ := frameLayout_parts legacy32 function
  have perm : (frameLayout legacy32 function).csrs.Perm function.usedCsrs := mergeSort_perm _ _
  have isCount := perm.length_eq
  have isEmpty : function.usedCsrs = [] ↔ (frameLayout legacy32 function).csrs = [] := by
    rw [← length_eq_zero_iff, ← isCount, length_eq_zero_iff]
  have multiple : 16 ∣ (frameLayout legacy32 function).frameSize.toNat :=
    isSize ▸ sixteen_dvd_frameSize inputs.objects
  have isWord : (frameLayout legacy32 function).word = word := rfl
  have positive : 0 < word := by cases legacy32 <;> decide
  have parts := @layout_iff _ word _ (2 * word) (frameLayout legacy32 function).csrs
    (outgoingBytes_lt inputs) positive inputs.objects (by cases legacy32 <;> decide)
  rw [isWord] at isOffsets isSize
  dsimp only at parts
  rw [← isBase, ← isOffsets, ← isSize, isCount, ← isEmpty] at parts
  refine Iff.trans ?_ (and_congr_left' parts)
  constructor
  · intro sound
    have aligned : ∀ base : Word, 16 ∣ base.toNat + 2 * word → ∀ index object,
        function.frameObjects[index]? = some object →
        object.align ∣ (base + (frameLayout legacy32 function).offset index).toNat := by
      intro base isAligned index object isObject
      have isSp : base + (frameLayout legacy32 function).frameSize + BitVec.ofNat 64 (2 * word) -
          BitVec.ofNat 64 (2 * word) - (frameLayout legacy32 function).frameSize = base := by
        rw [BitVec.add_sub_cancel, BitVec.add_sub_cancel]
      rw [← isSp] at isAligned
      have isMultiple := sound.aligned _ index object ((base_iff multiple).mpr isAligned) isObject
      have isDistance : (frameLayout legacy32 function).below = 2 * word := rfl
      rwa [isDistance, isSp] at isMultiple
    have fit : AreasFit (frameAreas (frameLayout legacy32 function).saveBase word
        (frameLayout legacy32 function).csrs.length (frameLayout legacy32 function).offsets
        function.frameObjects) (frameLayout legacy32 function).frameSize.toNat := sound.areas
    rw [isCount] at fit
    have sized := And.intro fit (And.intro aligned sound.recorded)
    have fits := (parts.mp sized).2.1
    refine ⟨sized, ?_⟩
    cases blocks : function.blocks with
    | nil => exact .inl rfl
    | cons entry rest =>
      have reached := @FrameSound.reaches _ _ inputs fits sound entry (by rw [blocks]; rfl)
      rw [frameSize_toNat inputs fits] at reached
      exact .inr reached
  · rintro ⟨⟨fit, aligned, recorded⟩, reached⟩
    have fits := (parts.mp ⟨fit, aligned, recorded⟩).2.1
    have near := (parts.mp ⟨fit, aligned, recorded⟩).2.2
    have whole := frameSize_toNat inputs fits
    have slots := fun index (isSlot : index < (frameLayout legacy32 function).csrs.length) =>
      slot_toNat inputs fits (isCount ▸ isSlot)
    have code : ∀ block ∈ function.blocks,
        (frameLayout legacy32 function).frameSize.toNat < immediateLimit legacy32 ∧
        (function.hasDynamicStack = true → ∀ start ∈ objectStarts
          (objectsBase (outgoingBytes function) word count) function.frameObjects,
            bytes ≤ 2 ^ 31 + start) := by
      intro block member
      have rest := reached.resolve_left (ne_nil_of_mem member)
      exact ⟨whole.symm ▸ rest.1, rest.2⟩
    have inside : ∀ index < (frameLayout legacy32 function).csrs.length,
        ((frameLayout legacy32 function).saveBase + BitVec.ofNat 64 (word * index)).toNat + word ≤
          (frameLayout legacy32 function).frameSize.toNat := by
      intro index isSlot
      have isSlotAt := slots index isSlot
      rw [whole]
      exact (Nat.le_of_eq (congrArg (· + word) isSlotAt.1)).trans isSlotAt.2
    refine ⟨?_, perm, ?_, ?_, ?_, ?_, recorded⟩
    · rw [← isCount] at fit
      exact fit
    · intro sp index object layout isAligned isObject
      exact aligned _ ((base_iff multiple).mp isAligned) index object isObject
    · intro k block isBlock
      refine ⟨_, lowerFrame_block legacy32 function isBlock, ?_⟩
      split
      case isTrue =>
        have small := (code block (mem_of_getElem? isBlock)).1
        exact opens_prologue small (inReach_saves positive small inside)
      case isFalse => rfl
    · intro block member loaded base state dst index object layout atFrame isObject
      obtain ⟨small, reach⟩ := code block member
      obtain ⟨isInside, -⟩ := List.getElem?_eq_some_iff.mp isObject
      obtain ⟨start, atIndex, -⟩ := offset_toNat inputs.objects fits isInside
      rw [frameAddr_run _ _ atFrame]
      refine if_pos ((reaches_iff inputs fits small atIndex).mpr ?_)
      exact fun isDynamic => reach isDynamic start (mem_of_getElem? atIndex)
    · intro block member inst _ isEnd
      have small := (code block member).1
      apply closes_epilogue (rbp_not_saved inputs) (inReach_restores positive small inside ?_) isEnd
      intro index isSlot
      have isSlotAt : ((frameLayout legacy32 function).saveBase +
        BitVec.ofNat 64 ((frameLayout legacy32 function).word * index)).toNat = _ :=
          (slots index isSlot).1
      rw [isSlotAt, whole]
      rcases near with none | near
      · rw [isEmpty.mp none] at isSlot
        cases isSlot
      · exact ((Nat.le_add_right _ _).trans near).trans (by omega)

end Sound

end Aburi.Backend.X86
