import Aburi.Air.Semantics

/-!
# Edges in the fast tiers

The fast tiers keep every block parameter in a frame slot.  The code of an
edge loads the arguments, which may already be cached in virtual registers,
and stores them to the slots of the parameters, one after the other.

The three selectors share this code.  They differ in the order of two tests,
in the 32-bit mode of x86, where 64-bit integers and long doubles are never
cached, and in where the code of a conditional edge is placed.
-/

namespace Aburi.Backend

open Aburi.Air

inductive FastTier where
  | aarch64
  | x86
  | or1k
  deriving DecidableEq

/-- What the selector emits for an edge; `build` stands for the instructions
that put a constant or the address of a symbol into a register. -/
inductive EdgeInst where
  | load (vreg frame : ℕ)
  | store (vreg frame : ℕ)
  | frameAddr (vreg frame : ℕ)
  | build (vreg : ℕ) (v : ValueId)
  | loadHalf (vreg frame : ℕ) (high : Bool)
  | storeHalf (vreg frame : ℕ) (high : Bool)
  | buildHalf (vreg : ℕ) (v : ValueId) (high : Bool)
  | pushF80 (frame : ℕ)
  | pushConstF80 (v : ValueId)
  | popF80 (frame : ℕ)
  deriving DecidableEq

/-- Values that live in slots rather than being built. -/
def isComputed (f : Function) (v : ValueId) : Bool :=
  match (f.value v).kind with
  | .instResult | .blockParam => true
  | _ => false

/-- What selection has fixed for a function: its slots, one frame object for
each value that has one, and the frame objects of its allocations.  Every
parameter of a linked block gets a slot before any code is selected. -/
structure SelectedFrame where
  function : Function
  slots : ValueId → Option ℕ
  frameAddrs : ValueId → Option ℕ
  isScalar : TypeId → Bool
  legacyI64 : TypeId → Bool
  legacyF80 : TypeId → Bool
  slotsComputed : ∀ v frame, slots v = some frame → isComputed function v = true
  slotsApart : ∀ v w frame, slots v = some frame → slots w = some frame → v = w
  addrsApart : ∀ v w frame, frameAddrs v = some frame → frameAddrs w = some frame → v = w
  paramsNodup : ∀ b ∈ function.layout, (function.blockParams b).Nodup
  paramSlots : ∀ b ∈ function.layout, ∀ p ∈ function.blockParams b, (slots p).isSome = true

structure Selector where
  blockValues : ValueId → Option ℕ
  nextVreg : ℕ
  code : List EdgeInst := []

namespace Selector

def emit (sel : Selector) (insts : List EdgeInst) : Selector :=
  { sel with code := sel.code ++ insts }

/-- A new register that holds a value until the end of the block. -/
def cacheNew (sel : Selector) (v : ValueId) (inst : ℕ → EdgeInst) : ℕ × Selector :=
  (sel.nextVreg,
    { blockValues := Function.update sel.blockValues v (some sel.nextVreg)
      nextVreg := sel.nextVreg + 1
      code := sel.code ++ [inst sel.nextVreg] })

end Selector

section Edges

variable (tier : FastTier) (frame : SelectedFrame)

/-- A selection error is reported as a failure. -/
def useReg (v : ValueId) (sel : Selector) : Option (ℕ × Selector) :=
  match sel.blockValues v with
  | some vreg => some (vreg, sel)
  | none =>
    match frame.frameAddrs v with
    | some object => some (sel.cacheNew v (.frameAddr · object))
    | none =>
      if frame.isScalar (frame.function.valueType v) = false then none
      else
        match (frame.function.value v).kind with
        | .instResult | .blockParam =>
          (frame.slots v).map fun slot => sel.cacheNew v (.load · slot)
        | .constFloat =>
          if tier = .or1k then none else some (sel.cacheNew v (.build · v))
        | _ => some (sel.cacheNew v (.build · v))

/-- The halves of a 64-bit integer in 32-bit mode. -/
def i64Load (v : ValueId) (sel : Selector) : Option (ℕ × ℕ × Selector) :=
  let lo := sel.nextVreg
  let hi := sel.nextVreg + 1
  let sel := { sel with nextVreg := sel.nextVreg + 2 }
  match (frame.function.value v).kind with
  | .constInt | .constNull | .undef =>
    some (lo, hi, sel.emit [.buildHalf lo v false, .buildHalf hi v true])
  | _ =>
    (frame.slots v).map fun slot =>
      (lo, hi, sel.emit [.loadHalf lo slot false, .loadHalf hi slot true])

def f80Push (v : ValueId) (sel : Selector) : Option Selector :=
  match (frame.function.value v).kind with
  | .constFloat | .constNull | .undef => some (sel.emit [.pushConstF80 v])
  | _ => (frame.slots v).map fun slot => sel.emit [.pushF80 slot]

/-- One turn of the loop in `emit_edge_stores`. -/
def storeArg (sel : Selector) (arg param : ValueId) : Option Selector :=
  match tier, frame.slots param with
  | .aarch64, slot =>
    (useReg tier frame arg sel).map fun (vreg, sel) =>
      match slot with
      | some slot => sel.emit [.store vreg slot]
      | none => sel
  | _, none => some sel
  | .or1k, some slot =>
    (useReg tier frame arg sel).map fun (vreg, sel) => sel.emit [.store vreg slot]
  | .x86, some slot =>
    if frame.legacyI64 (frame.function.valueType param) then
      (i64Load frame arg sel).map fun (lo, hi, sel) =>
        sel.emit [.storeHalf lo slot false, .storeHalf hi slot true]
    else if frame.legacyF80 (frame.function.valueType param) then
      (f80Push frame arg sel).map fun sel => sel.emit [.popF80 slot]
    else
      (useReg tier frame arg sel).map fun (vreg, sel) => sel.emit [.store vreg slot]

def emitStores : List (ValueId × ValueId) → Selector → Option Selector
  | [], sel => some sel
  | (arg, param) :: rest, sel =>
    (storeArg tier frame sel arg param).bind (emitStores rest)

/-- Arguments and parameters of an edge, as far as both go. -/
def edgePairs (call : BlockCallId) : List (ValueId × ValueId) :=
  (frame.function.blockCallArgs call).zip
    (frame.function.blockParams (frame.function.blockCall call).target)

def emitEdgeStores (call : BlockCallId) (sel : Selector) : Option Selector :=
  emitStores tier frame (edgePairs frame call) sel

/-- An edge with a block of its own starts without cached values. -/
def emitEdgeBlock (call : BlockCallId) (sel : Selector) : Option Selector :=
  emitEdgeStores tier frame call { blockValues := fun _ => none, nextVreg := sel.nextVreg }

end Edges

/-- The terminators with edges that pass arguments, at the selector's state in
front of their edges. -/
inductive EdgeTerminator where
  | jump (call : BlockCallId)
  | invoke (normal : BlockCallId)
  | brIf (thenCall elseCall : BlockCallId)
  | switch (default : BlockCallId) (cases : List BlockCallId)
  deriving DecidableEq

/-- The edges of a terminator with the code that runs when each is taken.  On
or1k the code of the first edge of a conditional branch stands in front of the
branch, so it runs for both edges. -/
def edgeCode (tier : FastTier) (frame : SelectedFrame) (sel : Selector) :
    EdgeTerminator → List (BlockCallId × Option Selector)
  | .jump call => [(call, emitEdgeStores tier frame call sel)]
  | .invoke normal => [(normal, emitEdgeStores tier frame normal sel)]
  | .brIf thenCall elseCall =>
    if tier = .or1k then
      let taken := emitEdgeStores tier frame thenCall sel
      [(thenCall, taken), (elseCall, taken.bind (emitEdgeStores tier frame elseCall))]
    else
      [(thenCall, emitEdgeBlock tier frame thenCall sel),
        (elseCall, emitEdgeBlock tier frame elseCall sel)]
  | .switch default cases =>
    (default, if tier = .or1k then emitEdgeStores tier frame default sel
      else emitEdgeBlock tier frame default sel) ::
      cases.map fun call => (call, emitEdgeBlock tier frame call sel)

end Aburi.Backend
