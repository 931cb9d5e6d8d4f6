import Aburi.Backend.AArch64.FrameSaves
import Aburi.Backend.X86.FrameSaves

/-!
# Sound frame layouts

Both targets place objects at aligned offsets from a base that is aligned only
as the stack pointer is.
-/

namespace Aburi.Backend

/-- The frame of a function in the natural numbers; `word` is a save slot. -/
def frameBytesOf {Op : Type} (word : ℕ) (function : MFunction Op) : ℕ :=
  frameBytes (outgoingBytes function) word function.usedCsrs.length function.frameObjects

/-- No object needs more alignment than two words, the frame has a 64-bit size
and, with a saved register, the canonical frame address is in reach of 32 bits. -/
structure LaysOut {Op : Type} (word : ℕ) (function : MFunction Op) : Prop where
  aligns : ∀ object ∈ function.frameObjects, object.align ≤ 2 * word
  fits : frameBytesOf word function < 2 ^ 64
  near : function.usedCsrs = [] ∨
    frameBytesOf word function + 2 * word ≤ 2 ^ 31 + roundUp (outgoingBytes function) 16

theorem laysOut_iff {Op : Type} {word : ℕ} {function : MFunction Op} :
    LaysOut word function ↔
      (∀ object ∈ function.frameObjects, object.align ≤ 2 * word) ∧
      frameBytesOf word function < 2 ^ 64 ∧
      (function.usedCsrs = [] ∨
        frameBytesOf word function + 2 * word ≤ 2 ^ 31 + roundUp (outgoingBytes function) 16) :=
  ⟨fun lays => ⟨lays.aligns, lays.fits, lays.near⟩, fun ⟨aligns, fits, near⟩ => ⟨aligns, fits, near⟩⟩

/-- The stores of an AArch64 prologue reach the slots. -/
def AArch64.ReachesSaves (function : MFunction AArch64.A64Op) : Prop :=
  function.blocks = [] ∨ function.usedCsrs = [] ∨
    roundUp (outgoingBytes function) 16 + 8 * function.usedCsrs.length ≤ 32768

/-- The size of an x86 frame is an immediate and, where objects are addressed from
its end, so are their distances from there. -/
def X86.ReachesFrame (legacy32 : Bool) (function : MFunction X86.X86Op) : Prop :=
  let word := if legacy32 then 4 else 8
  function.blocks = [] ∨ frameBytesOf word function < X86.immediateLimit legacy32 ∧
    (function.hasDynamicStack = true → ∀ start ∈ objectStarts
      (objectsBase (outgoingBytes function) word function.usedCsrs.length) function.frameObjects,
        frameBytesOf word function ≤ 2 ^ 31 + start)

/-- Two saved registers, a byte and an object of 40 bytes whose address is taken
before a branch to the epilogue. -/
def smallFrame {Op : Type} (frameAddr branch epilogue : Op) (csrs : List ℕ) (dynamic : Bool) :
    MFunction Op where
  blocks := [
    { insts := [
        { opcode := frameAddr, operands := [.reg (.phys 0), .frame 1 0] },
        { opcode := branch, operands := [.label 1] }]
      succs := [1] },
    { insts := [{ opcode := epilogue, operands := [] }] }]
  frameObjects := [⟨1, 1⟩, ⟨40, 16⟩]
  usedCsrs := csrs
  maxOutgoingBytes := 24
  hasDynamicStack := dynamic

section SmallFrame

variable {Op : Type} {frameAddr branch epilogue : Op} {csrs : List ℕ} (two : csrs.length = 2)
include two

theorem smallFrame_bytes (dynamic : Bool) :
    frameBytesOf 8 (smallFrame frameAddr branch epilogue csrs dynamic) =
      if dynamic then 80 else 112 := by
  show frameBytes (if dynamic then 0 else 24) 8 csrs.length [⟨1, 1⟩, ⟨40, 16⟩] = _
  rw [two]
  cases dynamic <;> decide

theorem smallFrame_laysOut (dynamic : Bool) :
    LaysOut 8 (smallFrame frameAddr branch epilogue csrs dynamic) := by
  have isBytes := @smallFrame_bytes _ frameAddr branch epilogue _ two dynamic
  have small : frameBytesOf 8 (smallFrame frameAddr branch epilogue csrs dynamic) ≤ 112 := by
    rw [isBytes]
    cases dynamic <;> decide
  refine ⟨?_, by omega, .inr (by omega)⟩
  intro object member
  rcases List.mem_pair.mp member with rfl | rfl <;> decide

end SmallFrame

theorem smallFrame_inputs {Op : Type} (frameAddr branch epilogue : Op) {isSaved : ℕ → Bool}
    {csrs : List ℕ} (saved : ∀ csr ∈ csrs, isSaved csr = true) (dynamic : Bool) :
    FrameInputs isSaved (smallFrame frameAddr branch epilogue csrs dynamic) where
  outgoing := (by decide : 24 < 2 ^ 32)
  objects := by
    intro object member
    rcases List.mem_pair.mp member with rfl | rfl
    · exact ⟨⟨0, by decide, rfl⟩, by decide⟩
    · exact ⟨⟨4, by decide, rfl⟩, by decide⟩
  csrs := saved

/-- A variable of 32 bytes that asks for their alignment. -/
def vectorFrame : MFunction AArch64.A64Op where
  blocks := [{ insts := [{ opcode := .epilogueRet, operands := [] }] }]
  frameObjects := [⟨32, 32⟩]

end Aburi.Backend
