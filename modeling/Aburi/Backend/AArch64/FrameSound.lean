import Aburi.Backend.AArch64.Frame

/-!
# Effects of lowered frame accesses

An access to a frame object is lowered faithfully exactly when `x16` holds
nothing that the access or code behind it still reads, or its address is not
computed there.  The effect of an access is a parameter: it depends on the
opcode, the address and the registers that the instruction reads, and on
nothing else.  So are the texts of inline assembly, of which only counts
whether they read `x16`.
-/

namespace Aburi.Backend.AArch64

open BitVec Option List Bool

abbrev Contents := BitVec 128

structure MachineState (Mem : Type) where
  regs : Nat → Contents
  mem : Mem

namespace MachineState

variable {Mem : Type}

def word (state : MachineState Mem) (r : Nat) : Word := (state.regs r).setWidth 64

def set (state : MachineState Mem) (r : Nat) (contents : Contents) : MachineState Mem :=
  { state with regs := Function.update state.regs r contents }

def setWord (state : MachineState Mem) (r : Nat) (value : Word) : MachineState Mem :=
  state.set r (value.setWidth 128)

section

variable (state : MachineState Mem)
include state

@[simp] theorem regs_set_self (r : Nat) (contents : Contents) :
    (state.set r contents).regs r = contents := by
  simp [set]

theorem regs_set_ne {r other : Nat} (contents : Contents) (different : other ≠ r) :
    (state.set r contents).regs other = state.regs other := by
  simp [set, different]

@[simp] theorem mem_set (r : Nat) (contents : Contents) :
    (state.set r contents).mem = state.mem := rfl

@[simp] theorem mem_setWord (r : Nat) (value : Word) :
    (state.setWord r value).mem = state.mem := rfl

@[simp] theorem word_setWord_self (r : Nat) (value : Word) :
    (state.setWord r value).word r = value := by
  rw [word, setWord, regs_set_self, setWidth_setWidth_of_le _ (by decide), setWidth_eq]

theorem word_setWord_ne {r other : Nat} (value : Word) (different : other ≠ r) :
    (state.setWord r value).word other = state.word other := by
  rw [word, setWord, regs_set_ne _ _ different, word]

theorem set_set (r : Nat) (first second : Contents) :
    (state.set r first).set r second = state.set r second := by
  simp [set]

end

end MachineState

/-- What an access does: the value of the register it defines, and the memory
behind it. -/
structure Accesses (Mem : Type) where
  access : A64Op → Word → List Contents → Mem → Contents × Mem

variable {opcode : A64Op}

section Exec

variable {Mem : Type} (accesses : Accesses Mem) (layout : FrameLayout) (frameBase : Word)

/-- The address an operand stands for; a frame object lies at its offset from
the base of the frame. -/
def address (state : MachineState Mem) : MOperand → Option Word
  | .reg (.phys r) => some (state.word r)
  | .frame index displacement =>
    some (frameBase + layout.offset index + BitVec.ofInt 64 displacement)
  | _ => none

def readsFirst (opcode : A64Op) : Bool :=
  !(regallocInfo opcode).definesOperand0 || (regallocInfo opcode).readsOperand0

/-- An access at an address, with what it reads; the first register receives
the result where the opcode defines it. -/
def execAccess (opcode : A64Op) (target : Word) (first : Nat) (others : List Nat)
    (state : MachineState Mem) : MachineState Mem :=
  let reads := (if readsFirst opcode then [first] else []) ++ others
  let (result, mem) := accesses.access opcode target (reads.map state.regs) state.mem
  if (regallocInfo opcode).definesOperand0 then { state with mem }.set first result
  else { state with mem }

/-- Accesses, and the instructions that addresses are computed with. -/
def execInst (inst : MInst A64Op) (state : MachineState Mem) : Option (MachineState Mem) :=
  match inst.opcode, inst.operands with
  | .movzX, [.reg (.phys d), .imm value] =>
    some (state.setWord d (BitVec.ofInt 64 value <<< (16 * inst.aux)))
  | .movkX, [.reg (.phys d), .imm value] =>
    let field := (0xFFFF : Word) <<< (16 * inst.aux)
    some (state.setWord d
      ((state.word d &&& ~~~field) ||| (BitVec.ofInt 64 value <<< (16 * inst.aux))))
  | .addX, [.reg (.phys d), .reg (.phys a), .reg (.phys b)] =>
    some (state.setWord d (state.word a + state.word b))
  | .subX, [.reg (.phys d), .reg (.phys a), .reg (.phys b)] =>
    some (state.setWord d (state.word a - state.word b))
  | .addXri, [.reg (.phys d), .reg (.phys a), .imm value] =>
    some (state.setWord d (state.word a + BitVec.ofInt 64 value))
  | .frameAddr, [.reg (.phys d), operand] =>
    (address layout frameBase state operand).map (state.setWord d)
  | opcode, operands =>
    match format opcode, operands with
    | .mem, [.reg (.phys r), operand, .imm value] =>
      (address layout frameBase state operand).map fun target =>
        execAccess accesses opcode (target + BitVec.ofInt 64 value) r [] state
    | .rrMem, [.reg (.phys r), .reg (.phys second), operand]
    | .lseRmw, [.reg (.phys r), .reg (.phys second), operand] =>
      (address layout frameBase state operand).map fun target =>
        execAccess accesses opcode target r [second] state
    | _, _ => none

def execAll (insts : List (MInst A64Op)) (state : MachineState Mem) :
    Option (MachineState Mem) :=
  insts.foldlM (fun state inst => execInst accesses layout frameBase inst state) state

theorem execInst_mem (isMem : format opcode = .mem) (aux r : Nat) (operand : MOperand) (value : Int)
    (state : MachineState Mem) :
    execInst accesses layout frameBase ⟨opcode, aux, [regOp r, operand, .imm value]⟩ state =
      (address layout frameBase state operand).map fun target =>
        execAccess accesses opcode (target + BitVec.ofInt 64 value) r [] state := by
  unfold execInst
  split
  case h_7 =>
    dsimp only
    rw [isMem]
    rfl
  all_goals
    rename_i same _
    cases same
    cases isMem

theorem execInst_atomic (isAtomic : format opcode = .rrMem ∨ format opcode = .lseRmw)
    (aux r second : Nat) (operand : MOperand) (state : MachineState Mem) :
    execInst accesses layout frameBase ⟨opcode, aux, [regOp r, regOp second, operand]⟩ state =
      (address layout frameBase state operand).map fun target =>
        execAccess accesses opcode target r [second] state := by
  unfold execInst
  split
  case h_7 =>
    dsimp only
    rcases isAtomic with isAtomic | isAtomic <;> rw [isAtomic] <;> rfl
  all_goals
    rename_i same _
    cases same
    rcases isAtomic with isAtomic | isAtomic <;> cases isAtomic

theorem execAll_append (first second : List (MInst A64Op)) (state : MachineState Mem) :
    execAll accesses layout frameBase (first ++ second) state =
      (execAll accesses layout frameBase first state).bind
        (execAll accesses layout frameBase second) := by
  simp only [execAll, foldlM_append]
  rfl

theorem execAll_single (inst : MInst A64Op) (state : MachineState Mem) :
    execAll accesses layout frameBase [inst] state =
      execInst accesses layout frameBase inst state := by
  simp [execAll]

end Exec

section Offset

variable {Mem : Type} (accesses : Accesses Mem) (layout : FrameLayout) (frameBase : Word)

/-- The low `16 * count` bits of a word. -/
def lowChunks (offset : Word) (count : Nat) : Word := (offset.setWidth (16 * count)).setWidth 64

theorem getLsbD_lowChunks (offset : Word) (count k : Nat) :
    (lowChunks offset count).getLsbD k = (decide (k < 16 * count) && offset.getLsbD k) := by
  rw [lowChunks, getLsbD_setWidth, getLsbD_setWidth]
  by_cases inside : k < 64
  · simp [inside]
  · have outside : offset.getLsbD k = false := getLsbD_of_ge _ _ (Nat.not_lt.mp inside)
    simp [outside]

theorem getLsbD_field (k : Nat) : (0xFFFF : Word).getLsbD k = decide (k < 16) := by
  by_cases inside : k < 64
  · have bits : ∀ k : Fin 64, (0xFFFF : Word).getLsbD k = decide (k.val < 16) := by decide
    exact bits ⟨k, inside⟩
  · rw [getLsbD_of_ge _ _ (Nat.not_lt.mp inside)]
    simp
    omega

theorem getLsbD_chunk (offset : Word) (i k : Nat) :
    (chunk offset i).getLsbD k = (decide (k < 16) && offset.getLsbD (16 * i + k)) := by
  rw [chunk, getLsbD_and, getLsbD_ushiftRight, getLsbD_field, Bool.and_comm]

theorem insert_chunk (offset : Word) (i : Nat) :
    (lowChunks offset i &&& ~~~((0xFFFF : Word) <<< (16 * i))) ||| (chunk offset i <<< (16 * i)) =
      lowChunks offset (i + 1) := by
  apply eq_of_getLsbD_eq
  intro k inside
  rw [getLsbD_or, getLsbD_and, getLsbD_not, getLsbD_shiftLeft,
    getLsbD_shiftLeft, getLsbD_lowChunks, getLsbD_lowChunks, getLsbD_chunk, getLsbD_field]
  by_cases below : k < 16 * i
  · have next : k < 16 * (i + 1) := by omega
    simp [inside, below, next]
  · have position : 16 * i + (k - 16 * i) = k := by omega
    have bound : k - 16 * i < 16 ↔ k < 16 * (i + 1) := by omega
    simp [inside, below, position, bound]

theorem chunk_shift_of_low (offset : Word) (i : Nat) (zero : lowChunks offset i = 0) :
    chunk offset i <<< (16 * i) = lowChunks offset (i + 1) := by
  rw [← insert_chunk, zero]
  simp

theorem lowChunks_succ_of_chunk (offset : Word) (i : Nat) (zero : chunk offset i = 0) :
    lowChunks offset (i + 1) = lowChunks offset i := by
  apply eq_of_getLsbD_eq
  intro k _
  have bit : ∀ k, (decide (k < 16) && offset.getLsbD (16 * i + k)) = false := by
    intro k
    rw [← getLsbD_chunk, zero]
    simp
  rw [getLsbD_lowChunks, getLsbD_lowChunks]
  by_cases below : k < 16 * i
  · have next : k < 16 * (i + 1) := by omega
    simp [below, next]
  · have position : 16 * i + (k - 16 * i) = k := by omega
    have here := bit (k - 16 * i)
    rw [position] at here
    have bound : k - 16 * i < 16 ↔ k < 16 * (i + 1) := by omega
    rw [decide_eq_decide.mpr bound] at here
    rw [here]
    simp [below]

theorem ofInt_toInt (value : Word) : BitVec.ofInt 64 value.toInt = value := BitVec.ofInt_toInt

/-- What has been emitted after some chunks: nothing while they are all zero,
else code that loads them. -/
def Emitted (offset : Word) (count : Nat) (emitted : List (MInst A64Op) × Bool) : Prop :=
  if emitted.2 then
    ∀ state : MachineState Mem,
      execAll accesses layout frameBase emitted.1 state =
        some (state.setWord X16 (lowChunks offset count))
  else emitted.1 = [] ∧ lowChunks offset count = 0 ∧ (0 < count → offset ≠ 0)

theorem emitted_zero (offset : Word) : Emitted accesses layout frameBase offset 0 ([], false) := by
  refine ⟨rfl, ?_, fun positive => absurd positive (Nat.lt_irrefl 0)⟩
  apply eq_of_getLsbD_eq
  intro k _
  simp [getLsbD_lowChunks]

theorem emitted_succ {offset : Word} {i : Nat} {emitted : List (MInst A64Op) × Bool}
    (before : Emitted accesses layout frameBase offset i emitted) :
    Emitted accesses layout frameBase offset (i + 1) (emitChunk offset emitted i) := by
  obtain ⟨out, started⟩ := emitted
  cases started with
  | true =>
    have loads : ∀ state : MachineState Mem, _ := before
    rw [emitChunk, if_pos rfl]
    split
    case isTrue zero =>
      intro state
      rw [lowChunks_succ_of_chunk offset i zero]
      exact loads state
    case isFalse =>
      intro state
      rw [execAll_append, loads state, bind_some, execAll_single]
      simp only [execInst, movkChunk, regOp, immOp]
      rw [ofInt_toInt, MachineState.word_setWord_self, insert_chunk]
      simp only [MachineState.setWord, MachineState.set_set]
  | false =>
    obtain ⟨empty, zeros, -⟩ := before
    rw [emitChunk, if_neg Bool.false_ne_true]
    split
    case isTrue zero =>
      refine ⟨empty, ?_, fun _ => zero.2⟩
      rw [lowChunks_succ_of_chunk offset i zero.1]
      exact zeros
    case isFalse =>
      intro state
      change out = [] at empty
      rw [empty, nil_append, execAll_single]
      simp only [execInst, movzChunk, regOp, immOp]
      rw [ofInt_toInt, chunk_shift_of_low offset i zeros]

/-- The sequence leaves the offset in `x16` and touches nothing else. -/
theorem execAll_emitOffsetIntoX16 (offset : Word) (state : MachineState Mem) :
    execAll accesses layout frameBase (emitOffsetIntoX16 offset) state =
      some (state.setWord X16 offset) := by
  have all : Emitted accesses layout frameBase offset 4
      ((range 4).foldl (emitChunk offset) ([], false)) := by
    have zero := emitted_zero accesses layout frameBase offset
    have one := emitted_succ accesses layout frameBase zero
    have two := emitted_succ accesses layout frameBase one
    have three := emitted_succ accesses layout frameBase two
    exact emitted_succ accesses layout frameBase three
  have whole : lowChunks offset 4 = offset := by
    apply eq_of_getLsbD_eq
    intro k inside
    rw [getLsbD_lowChunks, decide_eq_true inside, Bool.true_and]
  rw [emitOffsetIntoX16]
  generalize (range 4).foldl (emitChunk offset) ([], false) = emitted at all
  obtain ⟨out, started⟩ := emitted
  cases started with
  | true =>
    have loads : ∀ state : MachineState Mem, execAll accesses layout frameBase out state =
      some (state.setWord X16 (lowChunks offset 4)) := all
    rw [← whole]
    exact loads state
  | false =>
    obtain ⟨-, zeros, nonzero⟩ := all
    rw [whole] at zeros
    exact absurd zeros (nonzero (by decide))

end Offset

/-- The instructions with a frame operand: where the operand table allows one. -/
inductive FrameAccess : MInst A64Op → Prop
  | frameAddr (aux dst index : Nat) (displacement : Int) :
      FrameAccess ⟨.frameAddr, aux, [regOp dst, .frame index displacement]⟩
  | mem {opcode : A64Op} (aux first index : Nat) (displacement value : Int) :
      format opcode = .mem →
      FrameAccess ⟨opcode, aux, [regOp first, .frame index displacement, .imm value]⟩
  | atomic {opcode : A64Op} (aux first second index : Nat) (displacement : Int) :
      format opcode = .rrMem ∨ format opcode = .lseRmw →
      FrameAccess ⟨opcode, aux, [regOp first, regOp second, .frame index displacement]⟩

/-- The frame pointer lies behind the frame; the stack pointer stays at its
base where the stack does not grow. -/
def AtFrame {Mem : Type} (layout : FrameLayout) (frameBase : Word) (state : MachineState Mem) :
    Prop :=
  state.word X29 = frameBase + layout.frameSize ∧
    (layout.dynamic = false → state.word SP = frameBase)

/-- The register an instruction defines. -/
def destination (inst : MInst A64Op) : Option Nat :=
  match inst.operands with
  | .reg (.phys r) :: _ => if (regallocInfo inst.opcode).definesOperand0 then some r else none
  | _ => none

def isPairLoad : A64Op → Bool
  | .ldpXpost | .ldpXoff | .ldpDoff => true
  | _ => false

theorem not_isPairLoad (notPair : format opcode ≠ .pairPost ∧ format opcode ≠ .pairOff) :
    isPairLoad opcode = false := by
  unfold isPairLoad
  split
  case h_1 => exact absurd rfl notPair.1
  case h_2 | h_3 => exact absurd rfl notPair.2
  case h_4 => rfl

def readOperands (inst : MInst A64Op) : List MOperand :=
  if isPairLoad inst.opcode then inst.operands.drop 2
  else if readsFirst inst.opcode then inst.operands
  else inst.operands.drop 1

/-- Inline assembly names its registers in the text alone. -/
def readsX16 (textReads : Nat → Bool) (inst : MInst A64Op) : Bool :=
  if inst.opcode = .asmBlock then textReads inst.aux
  else (readOperands inst).contains (regOp X16)

/-- Linkers put code that uses `x16` between a call and its target. -/
def overwritesX16 (inst : MInst A64Op) : Bool :=
  (regallocInfo inst.opcode).isCall || destination inst == some X16 ||
    isPairLoad inst.opcode && (inst.operands.take 2).contains (regOp X16)

def fallsThrough : A64Op → Bool
  | .b | .ret | .brk | .brReg | .epilogueRet | .epilogueTailBr => false
  | _ => true

/-- Control can go from an instruction of the block to the start of `target`;
an indirect branch names no label. -/
def BranchesTo (block : MBlock A64Op) (inst : MInst A64Op) (target : Nat) : Prop :=
  .label target ∈ inst.operands ∨ inst.opcode = .brReg ∧ target ∈ block.succs

/-- From the instruction `i` of block `k` on, some path reads `x16` before it
overwrites it. -/
inductive X16StillRead (textReads : Nat → Bool) (function : MFunction A64Op) : Nat → Nat → Prop
  | read {k i : Nat} {block : MBlock A64Op} {inst : MInst A64Op} :
      function.blocks[k]? = some block → block.insts[i]? = some inst →
      readsX16 textReads inst = true → X16StillRead textReads function k i
  | next {k i : Nat} {block : MBlock A64Op} {inst : MInst A64Op} :
      function.blocks[k]? = some block → block.insts[i]? = some inst →
      overwritesX16 inst = false → fallsThrough inst.opcode = true →
      X16StillRead textReads function k (i + 1) → X16StillRead textReads function k i
  | branch {k i target : Nat} {block : MBlock A64Op} {inst : MInst A64Op} :
      function.blocks[k]? = some block → block.insts[i]? = some inst →
      overwritesX16 inst = false → BranchesTo block inst target →
      X16StillRead textReads function target 0 → X16StillRead textReads function k i
  | behind {k i : Nat} {block : MBlock A64Op} :
      function.blocks[k]? = some block → block.insts[i]? = none →
      X16StillRead textReads function (k + 1) 0 → X16StillRead textReads function k i

/-- The lowered sequence does what the instruction does.  It may leave an
address in `x16`, but not where the result belongs there or a value that is
`still` read. -/
def Preserved (layout : FrameLayout) (still : Prop) (inst : MInst A64Op) : Prop :=
  ∀ (Mem : Type) (accesses : Accesses Mem) (frameBase : Word) (state : MachineState Mem),
    AtFrame layout frameBase state →
    ∃ direct lowered, execInst accesses layout frameBase inst state = some direct ∧
      execAll accesses layout frameBase (lowerInst layout inst) state = some lowered ∧
      lowered.mem = direct.mem ∧
      ∀ r, (r = X16 → destination inst = some X16 ∨ still) → lowered.regs r = direct.regs r

/-- The address of the access is computed in `x16`. -/
def addressesThroughX16 (layout : FrameLayout) (inst : MInst A64Op) : Bool :=
  match inst.operands with
  | [_, .frame index displacement] =>
    layout.dynamic || !decide (layout.offset index + BitVec.ofInt 64 displacement ≤ 4095)
  | [_, .frame index displacement, .imm value] =>
    !encodable layout inst.opcode
      (layout.offset index + BitVec.ofInt 64 displacement + BitVec.ofInt 64 value)
  | [_, _, .frame _ _] => true
  | _ => false

section Lowering

variable {Mem : Type} (accesses : Accesses Mem) {layout : FrameLayout} {frameBase : Word}
  {state : MachineState Mem} (atFrame : AtFrame layout frameBase state)

include atFrame

theorem execAll_emitFrameAddress (dst : Nat) (offset : Word) :
    execAll accesses layout frameBase (emitFrameAddress layout (regOp dst) offset) state =
      some ((state.setWord X16
        (if layout.dynamic then layout.frameSize - offset else offset)).setWord dst
          (frameBase + offset)) := by
  rw [emitFrameAddress]
  split
  case isTrue dynamic =>
    rw [execAll_append, execAll_emitOffsetIntoX16, bind_some, execAll_single]
    simp only [execInst, regOp]
    rw [MachineState.word_setWord_self, MachineState.word_setWord_ne _ _ (by decide), atFrame.1]
    congr 2
    bv_omega
  case isFalse static =>
    rw [execAll_append, execAll_emitOffsetIntoX16, bind_some, execAll_single]
    simp only [execInst, regOp]
    rw [MachineState.word_setWord_self, MachineState.word_setWord_ne _ _ (by decide),
      atFrame.2 (by simpa using static)]

omit atFrame in
/-- An access that does not read `x16` does not depend on it. -/
theorem execAccess_setWord {first : Nat} {others : List Nat}
    (unread : X16 ∉ (if readsFirst opcode then [first] else []) ++ others) (target value : Word) :
    (execAccess accesses opcode target first others (state.setWord X16 value)).mem =
        (execAccess accesses opcode target first others state).mem ∧
      ∀ r, (r = X16 → (regallocInfo opcode).definesOperand0 = true ∧ first = X16) →
        (execAccess accesses opcode target first others (state.setWord X16 value)).regs r =
          (execAccess accesses opcode target first others state).regs r := by
  have reads : (((if readsFirst opcode then [first] else []) ++ others).map
        (state.setWord X16 value).regs) =
      (((if readsFirst opcode then [first] else []) ++ others).map state.regs) := by
    apply map_congr_left
    intro r member
    refine MachineState.regs_set_ne _ _ ?_
    rintro rfl
    exact unread member
  simp only [execAccess, reads, MachineState.mem_setWord]
  split
  case isTrue defines =>
    refine ⟨rfl, fun r kept => ?_⟩
    by_cases isFirst : r = first
    · subst isFirst
      rw [MachineState.regs_set_self, MachineState.regs_set_self]
    · rw [MachineState.regs_set_ne _ _ isFirst, MachineState.regs_set_ne _ _ isFirst]
      refine MachineState.regs_set_ne _ _ ?_
      intro isX16
      exact isFirst (isX16.trans (kept isX16).2.symm)
  case isFalse defines =>
    refine ⟨rfl, fun r kept => ?_⟩
    refine MachineState.regs_set_ne _ _ ?_
    intro isX16
    exact defines (kept isX16).1

end Lowering

theorem lowerInst_mem (isMem : format opcode = .mem) (layout : FrameLayout) (aux first index : Nat)
    (displacement value : Int) :
    lowerInst layout ⟨opcode, aux, [regOp first, .frame index displacement, .imm value]⟩ =
      let offset := layout.offset index + BitVec.ofInt 64 displacement + BitVec.ofInt 64 value
      if encodable layout opcode offset then
        [⟨opcode, aux, [regOp first, regOp SP, immOp offset]⟩]
      else
        emitFrameAddress layout (regOp X16) offset ++
          [⟨opcode, aux, [regOp first, regOp X16, .imm 0]⟩] := by
  unfold lowerInst
  split
  case h_4 =>
    dsimp only
    rw [isMem]
    rfl
  case h_1 same _ | h_2 same | h_3 same =>
    cases same
    cases isMem

theorem lowerInst_atomic (isAtomic : format opcode = .rrMem ∨ format opcode = .lseRmw)
    (layout : FrameLayout) (aux first second index : Nat) (displacement : Int) :
    lowerInst layout ⟨opcode, aux, [regOp first, regOp second, .frame index displacement]⟩ =
      emitFrameAddress layout (regOp X16) (layout.offset index + BitVec.ofInt 64 displacement) ++
        [⟨opcode, aux, [regOp first, regOp second, regOp X16]⟩] := by
  unfold lowerInst
  split
  case h_4 =>
    dsimp only
    rcases isAtomic with isAtomic | isAtomic <;> rw [isAtomic]
  case h_1 same _ | h_2 same | h_3 same =>
    cases same
    rcases isAtomic with isAtomic | isAtomic <;> cases isAtomic

section Paths

variable {Mem : Type} (accesses : Accesses Mem) {layout : FrameLayout} {frameBase : Word}
  {state : MachineState Mem} (atFrame : AtFrame layout frameBase state)

include atFrame in
/-- On the long path the access starts with the address in `x16`. -/
theorem execAll_through_x16 (offset : Word) (inst : MInst A64Op) :
    execAll accesses layout frameBase (emitFrameAddress layout (regOp X16) offset ++ [inst]) state =
      execInst accesses layout frameBase inst (state.setWord X16 (frameBase + offset)) := by
  rw [execAll_append, execAll_emitFrameAddress accesses atFrame, bind_some, execAll_single]
  simp only [MachineState.setWord, MachineState.set_set]

theorem execInst_frame_mem (isMem : format opcode = .mem) (aux first index : Nat)
    (displacement value : Int) :
    execInst accesses layout frameBase
        ⟨opcode, aux, [regOp first, .frame index displacement, .imm value]⟩ state =
      some (execAccess accesses opcode
        (frameBase + (layout.offset index + BitVec.ofInt 64 displacement +
          BitVec.ofInt 64 value)) first [] state) := by
  rw [execInst_mem accesses layout frameBase isMem, address, map_some, BitVec.add_assoc,
    BitVec.add_assoc, BitVec.add_assoc]

theorem execInst_frame_atomic (isAtomic : format opcode = .rrMem ∨ format opcode = .lseRmw)
    (aux first second index : Nat) (displacement : Int) :
    execInst accesses layout frameBase
        ⟨opcode, aux, [regOp first, regOp second, .frame index displacement]⟩ state =
      some (execAccess accesses opcode
        (frameBase + (layout.offset index + BitVec.ofInt 64 displacement)) first [second]
        state) := by
  rw [execInst_atomic accesses layout frameBase isAtomic, address, map_some,
    BitVec.add_assoc]

theorem address_x16 (value : Word) :
    address layout frameBase (state.setWord X16 value) (regOp X16) = some value := by
  rw [regOp, address, MachineState.word_setWord_self]

include atFrame

theorem execAll_lowered_mem (isMem : format opcode = .mem) (aux first index : Nat)
    (displacement value : Int) :
    let offset := layout.offset index + BitVec.ofInt 64 displacement + BitVec.ofInt 64 value
    execAll accesses layout frameBase
        (lowerInst layout ⟨opcode, aux, [regOp first, .frame index displacement, .imm value]⟩)
        state =
      some (execAccess accesses opcode (frameBase + offset) first []
        (if encodable layout opcode offset then state
          else state.setWord X16 (frameBase + offset))) := by
  intro offset
  rw [lowerInst_mem isMem]
  dsimp only
  split
  case isTrue short =>
    have static : layout.dynamic = false := by
      simp only [encodable, and_eq_true, not_eq_true'] at short
      exact short.1.1.1
    rw [execAll_single, immOp, execInst_mem accesses layout frameBase isMem, regOp, address,
      atFrame.2 static, map_some, ofInt_toInt]
  case isFalse =>
    rw [execAll_through_x16 accesses atFrame, execInst_mem accesses layout frameBase isMem,
      address_x16, map_some]
    have noOffset : BitVec.ofInt 64 0 = 0#64 := rfl
    rw [noOffset, BitVec.add_zero]

theorem execAll_lowered_atomic (isAtomic : format opcode = .rrMem ∨ format opcode = .lseRmw)
    (aux first second index : Nat) (displacement : Int) :
    let offset := layout.offset index + BitVec.ofInt 64 displacement
    execAll accesses layout frameBase
        (lowerInst layout ⟨opcode, aux, [regOp first, regOp second, .frame index displacement]⟩)
        state =
      some (execAccess accesses opcode (frameBase + offset) first [second]
        (state.setWord X16 (frameBase + offset))) := by
  intro offset
  rw [lowerInst_atomic isAtomic, execAll_through_x16 accesses atFrame,
    execInst_atomic accesses layout frameBase isAtomic, address_x16, map_some]

end Paths

/-- A memory that remembers what the last access read. -/
def recordReads : Accesses (List Contents) where
  access _ _ reads _ := (0, reads)

/-- A state at the base of the frame in which `x16` holds no address. -/
def markedState (layout : FrameLayout) : MachineState (List Contents) where
  regs r :=
    if r = X29 then layout.frameSize.setWidth 128
    else if r = X16 then BitVec.allOnes 128
    else 0
  mem := []

theorem markedState_atFrame (layout : FrameLayout) : AtFrame layout 0 (markedState layout) := by
  constructor
  · simp [MachineState.word, markedState]
  · intro _
    simp [MachineState.word, markedState, SP, X29, X16]

theorem mem_recordReads (opcode : A64Op) (target : Word) (first : Nat) (others : List Nat)
    (state : MachineState (List Contents)) :
    (execAccess recordReads opcode target first others state).mem =
      ((if readsFirst opcode then [first] else []) ++ others).map state.regs := by
  simp only [execAccess, recordReads]
  split <;> rfl

/-- Reading `x16` with the address in it shows. -/
theorem recordReads_differ {layout : FrameLayout} {reads : List Nat} (member : X16 ∈ reads)
    (value : Word) :
    reads.map ((markedState layout).setWord X16 value).regs ≠
      reads.map (markedState layout).regs := by
  intro same
  have atX16 := List.map_inj_left.mp same X16 member
  simp only [MachineState.setWord, MachineState.regs_set_self, markedState] at atX16
  rw [if_neg (by decide), if_true] at atX16
  have high := congrArg (fun contents => BitVec.getLsbD contents 100) atX16
  simp at high

theorem setWord_ne_marked (value : Word) : value.setWidth 128 ≠ BitVec.allOnes 128 := by
  intro same
  have high := congrArg (fun contents => BitVec.getLsbD contents 100) same
  simp at high

theorem regs_execAccess_x16 {Mem : Type} (accesses : Accesses Mem) (target : Word) {first : Nat}
    (others : List Nat) (state : MachineState Mem)
    (elsewhere : ¬ ((regallocInfo opcode).definesOperand0 = true ∧ first = X16)) :
    (execAccess accesses opcode target first others state).regs X16 = state.regs X16 := by
  simp only [execAccess]
  split
  case isTrue defines =>
    refine MachineState.regs_set_ne _ _ ?_
    intro isFirst
    exact elsewhere ⟨defines, isFirst.symm⟩
  case isFalse => rfl

/-- The address of an object is its own result; it costs the contents of
`x16` where it is computed there. -/
theorem preserved_frameAddr (layout : FrameLayout) (still : Prop) (aux dst index : Nat)
    (displacement : Int) :
    Preserved layout still ⟨.frameAddr, aux, [regOp dst, .frame index displacement]⟩ ↔
      ¬ (addressesThroughX16 layout
          ⟨.frameAddr, aux, [regOp dst, .frame index displacement]⟩ = true ∧
        dst ≠ X16 ∧ still) := by
  have isDestination : destination ⟨.frameAddr, aux, [regOp dst, .frame index displacement]⟩ =
      some dst := rfl
  have direct : ∀ {Mem : Type} (accesses : Accesses Mem) (frameBase : Word)
      (state : MachineState Mem), execInst accesses layout frameBase
        ⟨.frameAddr, aux, [regOp dst, .frame index displacement]⟩ state =
          some (state.setWord dst
            (frameBase + (layout.offset index + BitVec.ofInt 64 displacement))) := by
    intro Mem accesses frameBase state
    rw [← BitVec.add_assoc]
    rfl
  by_cases short : layout.dynamic = false ∧
      layout.offset index + BitVec.ofInt 64 displacement ≤ 4095
  · have near : addressesThroughX16 layout
        ⟨.frameAddr, aux, [regOp dst, .frame index displacement]⟩ = false := by
      simp only [addressesThroughX16, short.1, decide_eq_true short.2]
      rfl
    refine iff_of_true ?_ (fun far => Bool.false_ne_true (near.symm.trans far.1))
    intro Mem accesses frameBase state atFrame
    refine ⟨_, _, direct accesses frameBase state, ?_, rfl, fun r _ => rfl⟩
    simp only [lowerInst, regOp]
    rw [if_pos short, execAll_single]
    simp only [execInst, immOp]
    rw [ofInt_toInt, atFrame.2 short.1]
  · have far : addressesThroughX16 layout
        ⟨.frameAddr, aux, [regOp dst, .frame index displacement]⟩ = true := by
      simp only [addressesThroughX16]
      cases dynamic : layout.dynamic with
      | true => rfl
      | false =>
        rw [decide_eq_false (fun near => short ⟨dynamic, near⟩)]
        rfl
    have lowered : ∀ {Mem : Type} (accesses : Accesses Mem) {frameBase : Word}
        {state : MachineState Mem}, AtFrame layout frameBase state → _ :=
      fun accesses _ _ atFrame => execAll_emitFrameAddress accesses atFrame dst
        (layout.offset index + BitVec.ofInt 64 displacement)
    have sequence : lowerInst layout
        ⟨.frameAddr, aux, [regOp dst, .frame index displacement]⟩ =
          emitFrameAddress layout (regOp dst)
            (layout.offset index + BitVec.ofInt 64 displacement) := by
      simp only [lowerInst, regOp]
      exact if_neg short
    constructor
    · rintro preserved ⟨-, elsewhere, read⟩
      obtain ⟨_, _, atDirect, atLowered, -, same⟩ :=
        preserved _ recordReads 0 _ (markedState_atFrame layout)
      rw [direct] at atDirect
      rw [sequence, lowered _ (markedState_atFrame layout)] at atLowered
      cases atDirect
      cases atLowered
      have atX16 := same X16 fun _ => .inr read
      rw [MachineState.setWord, MachineState.regs_set_ne _ _ elsewhere.symm, MachineState.setWord,
        MachineState.regs_set_self, MachineState.setWord,
        MachineState.regs_set_ne _ _ elsewhere.symm] at atX16
      exact setWord_ne_marked _ atX16
    · intro safe Mem accesses frameBase state atFrame
      refine ⟨_, _, direct accesses frameBase state,
        (congrArg (execAll accesses layout frameBase · state) sequence).trans
          (lowered accesses atFrame), rfl, ?_⟩
      intro r kept
      by_cases isDst : r = dst
      · subst isDst
        simp only [MachineState.setWord, MachineState.regs_set_self]
      · rw [MachineState.setWord, MachineState.regs_set_ne _ _ isDst, MachineState.setWord,
          MachineState.setWord, MachineState.regs_set_ne _ _ isDst]
        refine MachineState.regs_set_ne _ _ ?_
        intro isX16
        have elsewhere : dst ≠ X16 := fun same => isDst (isX16.trans same.symm)
        rcases kept isX16 with isDestination' | read
        · rw [isDestination] at isDestination'
          exact elsewhere (Option.some.inj isDestination')
        · exact safe ⟨far, elsewhere, read⟩

/-- Both kinds of accesses: with the address in `x16` or, on the short path,
with the registers as they were. -/
theorem preserved_iff_unread {layout : FrameLayout} {still : Prop} {inst : MInst A64Op}
    {first : Nat} {others : List Nat} {short : Bool} {offset : Word}
    (firstOperand : inst.operands.head? = some (regOp first))
    (direct : ∀ {Mem : Type} (accesses : Accesses Mem) (frameBase : Word)
      (state : MachineState Mem), execInst accesses layout frameBase inst state =
        some (execAccess accesses inst.opcode (frameBase + offset) first others state))
    (lowered : ∀ {Mem : Type} (accesses : Accesses Mem) {frameBase : Word}
      {state : MachineState Mem}, AtFrame layout frameBase state →
      execAll accesses layout frameBase (lowerInst layout inst) state =
        some (execAccess accesses inst.opcode (frameBase + offset) first others
          (if short then state else state.setWord X16 (frameBase + offset)))) :
    Preserved layout still inst ↔
      ¬ (short = false ∧ (X16 ∈ (if readsFirst inst.opcode then [first] else []) ++ others ∨
        destination inst ≠ some X16 ∧ still)) := by
  have isDestination : destination inst =
      if (regallocInfo inst.opcode).definesOperand0 then some first else none := by
    obtain ⟨rest, operands⟩ := List.head?_eq_some_iff.mp firstOperand
    rw [destination, operands]
    rfl
  constructor
  · rintro preserved ⟨long, needed⟩
    obtain ⟨_, _, atDirect, atLowered, sameMem, sameRegs⟩ :=
      preserved _ recordReads 0 _ (markedState_atFrame layout)
    rw [direct] at atDirect
    rw [lowered _ (markedState_atFrame layout), long, if_neg Bool.false_ne_true] at atLowered
    cases atDirect
    cases atLowered
    rcases needed with read | ⟨elsewhere, read⟩
    · rw [mem_recordReads, mem_recordReads] at sameMem
      exact recordReads_differ read _ sameMem
    · have notFirst : ¬ ((regallocInfo inst.opcode).definesOperand0 = true ∧ first = X16) := by
        rintro ⟨defines, rfl⟩
        rw [isDestination, if_pos defines] at elsewhere
        exact elsewhere rfl
      have atX16 := sameRegs X16 fun _ => .inr read
      rw [regs_execAccess_x16 _ _ _ _ notFirst, regs_execAccess_x16 _ _ _ _ notFirst,
        MachineState.setWord, MachineState.regs_set_self] at atX16
      exact setWord_ne_marked _ atX16
  · intro safe Mem accesses frameBase state atFrame
    refine ⟨_, _, direct accesses frameBase state, lowered accesses atFrame, ?_⟩
    cases isShort : short with
    | true => exact ⟨rfl, fun _ _ => rfl⟩
    | false =>
      rw [if_neg Bool.false_ne_true]
      have unread := fun read => safe ⟨isShort, .inl read⟩
      obtain ⟨sameMem, sameRegs⟩ := execAccess_setWord accesses unread (frameBase + offset)
        (frameBase + offset)
      refine ⟨sameMem, fun r kept => sameRegs r fun isX16 => ?_⟩
      have defined : destination inst = some X16 := by
        rcases kept isX16 with defined | read
        · exact defined
        · by_contra elsewhere
          exact safe ⟨isShort, .inr ⟨elsewhere, read⟩⟩
      rw [isDestination] at defined
      split at defined
      case isTrue defines => exact ⟨defines, Option.some.inj defined⟩
      case isFalse => cases defined

/-- `x16` is taken for the address while the access, or code behind it, reads
what it holds. -/
def LosesX16 (textReads : Nat → Bool) (layout : FrameLayout) (still : Prop)
    (inst : MInst A64Op) : Prop :=
  addressesThroughX16 layout inst = true ∧
    (readsX16 textReads inst = true ∨ destination inst ≠ some X16 ∧ still)

/-- An access keeps its effect iff `x16` is not taken from it. -/
theorem preserved_iff (textReads : Nat → Bool) {layout : FrameLayout} {still : Prop}
    {inst : MInst A64Op} (access : FrameAccess inst) :
    Preserved layout still inst ↔ ¬ LosesX16 textReads layout still inst := by
  cases access with
  | frameAddr aux dst index displacement =>
    have unread : readsX16 textReads
        ⟨.frameAddr, aux, [regOp dst, .frame index displacement]⟩ = false := rfl
    have isDestination : destination
        ⟨.frameAddr, aux, [regOp dst, .frame index displacement]⟩ = some dst := rfl
    rw [preserved_frameAddr, LosesX16, unread, isDestination]
    simp
  | @mem opcode aux first index displacement value isMem =>
    have reads : readsX16 textReads
        ⟨opcode, aux, [regOp first, .frame index displacement, .imm value]⟩ =
          decide (X16 ∈ (if readsFirst opcode then [first] else []) ++ []) := by
      have single : isPairLoad opcode = false := not_isPairLoad (by rw [isMem]; decide)
      have noText : opcode ≠ .asmBlock := by
        rintro rfl
        cases isMem
      simp only [readsX16, readOperands, single, if_neg noText]
      cases readsFirst opcode <;> simp [regOp]
    rw [preserved_iff_unread rfl
      (fun accesses _ _ => execInst_frame_mem accesses isMem aux first index displacement value)
      (fun accesses _ _ atFrame =>
        execAll_lowered_mem accesses atFrame isMem aux first index displacement value),
      LosesX16, reads]
    simp only [addressesThroughX16, not_eq_true', decide_eq_true_iff]
  | @atomic opcode aux first second index displacement isAtomic =>
    have reads : readsX16 textReads
        ⟨opcode, aux, [regOp first, regOp second, .frame index displacement]⟩ =
          decide (X16 ∈ (if readsFirst opcode then [first] else []) ++ [second]) := by
      have single : isPairLoad opcode = false := by
        rcases isAtomic with isAtomic | isAtomic
        · exact not_isPairLoad (by rw [isAtomic]; decide)
        · exact not_isPairLoad (by rw [isAtomic]; decide)
      have noText : opcode ≠ .asmBlock := by
        rintro rfl
        rcases isAtomic with isAtomic | isAtomic <;> cases isAtomic
      simp only [readsX16, readOperands, single, if_neg noText]
      cases readsFirst opcode <;> simp [regOp]
    have lowered : ∀ {Mem : Type} (accesses : Accesses Mem) {frameBase : Word}
        {state : MachineState Mem}, AtFrame layout frameBase state →
        execAll accesses layout frameBase (lowerInst layout
          ⟨opcode, aux, [regOp first, regOp second, .frame index displacement]⟩) state =
        some (execAccess accesses opcode
          (frameBase + (layout.offset index + BitVec.ofInt 64 displacement)) first [second]
          (if false then state else state.setWord X16
            (frameBase + (layout.offset index + BitVec.ofInt 64 displacement)))) := by
      intro Mem accesses frameBase state atFrame
      rw [if_neg Bool.false_ne_true]
      exact execAll_lowered_atomic accesses atFrame isAtomic aux first second index displacement
    rw [preserved_iff_unread rfl
      (fun accesses _ _ =>
        execInst_frame_atomic accesses isAtomic aux first second index displacement) lowered,
      LosesX16, reads]
    simp only [addressesThroughX16, decide_eq_true_iff]

/-- Blocks are lowered instruction by instruction, behind the prologue in the
first one. -/
theorem lowerFrame_block (function : MFunction A64Op) {k : Nat} {block : MBlock A64Op}
    (found : function.blocks[k]? = some block) :
    (lowerFrame function).blocks[k]? =
      some { block with insts := (if k = 0 then prologue (frameLayout function) else []) ++
        block.insts.flatMap (lowerInst (frameLayout function)) } := by
  rw [lowerFrame]
  cases blocks : function.blocks with
  | nil => simp [blocks] at found
  | cons entry rest =>
    rw [blocks] at found
    cases k with
    | zero =>
      cases found
      simp [lowerBlock]
    | succ k =>
      have later : rest[k]? = some block := by simpa using found
      simp [lowerBlock, later]

/-- The lowered function runs, for every frame access, the sequence of its
lowering, and it keeps the effect of every access iff none has its address
computed in `x16` while the access, or a path behind it, still reads what
`x16` holds. -/
theorem lowerFrame_preserves_iff (textReads : Nat → Bool) (function : MFunction A64Op) :
    (∀ k (block : MBlock A64Op), function.blocks[k]? = some block →
      (lowerFrame function).blocks[k]? =
      some { block with insts := (if k = 0 then prologue (frameLayout function) else []) ++
        block.insts.flatMap (lowerInst (frameLayout function)) }) ∧
    ((∀ k (block : MBlock A64Op) i inst, function.blocks[k]? = some block →
        block.insts[i]? = some inst → FrameAccess inst →
        Preserved (frameLayout function) (X16StillRead textReads function k (i + 1)) inst) ↔
      ∀ k (block : MBlock A64Op) i inst, function.blocks[k]? = some block →
        block.insts[i]? = some inst → FrameAccess inst →
        ¬ LosesX16 textReads (frameLayout function)
          (X16StillRead textReads function k (i + 1)) inst) := by
  refine ⟨fun k block found => lowerFrame_block function found, ?_⟩
  constructor
  · intro preserved k block i inst found inside access
    exact (preserved_iff textReads access).mp (preserved k block i inst found inside access)
  · intro safe k block i inst found inside access
    exact (preserved_iff textReads access).mpr (safe k block i inst found inside access)

/-- A parameter that arrives on the stack is copied through `x16` to its slot,
which lies behind 40000 bytes of locals. -/
def stackParameterFunction : MFunction A64Op :=
  { blocks := [{ insts :=
      [{ opcode := .ldrX, operands := [regOp X16, regOp X29, .imm 16] },
        { opcode := .strX, operands := [regOp X16, .frame 1 0, .imm 0] }] }]
    frameObjects := [⟨40000, 8⟩, ⟨8, 8⟩] }

theorem stackParameter_overwritten :
    ¬ ∀ k (block : MBlock A64Op) i inst, stackParameterFunction.blocks[k]? = some block →
      block.insts[i]? = some inst → FrameAccess inst →
      Preserved (frameLayout stackParameterFunction)
        (X16StillRead (fun _ => false) stackParameterFunction k (i + 1)) inst := by
  intro preserved
  have access : FrameAccess ⟨.strX, 0, [regOp X16, .frame 1 0, .imm 0]⟩ := .mem 0 _ _ _ _ rfl
  have kept := preserved 0 _ 1 _ rfl rfl access
  exact (preserved_iff (fun _ => false) access).mp kept
    ⟨by decide +kernel, .inl (by decide)⟩

end Aburi.Backend.AArch64
