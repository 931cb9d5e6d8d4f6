import Aburi.Air.Function
import Aburi.Lib.Worklist

/-!
# Simplification of the control-flow graph

Rounds that fold branches, let edges bypass empty blocks, merge a block into
its only predecessor and drop what control cannot reach.
-/

namespace Aburi.Air

open Aburi.Lib

/-- An edge as the block it leaves, its block call and the terminator it belongs to. -/
structure PredEdge where
  source : BlockId
  call : BlockCallId
  terminator : Opcode
  deriving DecidableEq

structure CfgFacts where
  preds : BlockId → List PredEdge
  protectedBlocks : List BlockId

namespace Function

variable (f : Function)

def edgesOf (block : BlockId) : List PredEdge :=
  match f.lastInst? block with
  | none => []
  | some term => (f.successors term).map fun call => ⟨block, call, (f.inst term).op⟩

def edges : List PredEdge := f.layout.flatMap f.edgesOf

def predsOf (block : BlockId) : List PredEdge :=
  f.edges.filter fun edge => (f.blockCall edge.call).target = block

/-- A block is protected when its address is a value or an indirect branch lists it. -/
def collectCfgFacts : CfgFacts where
  preds := f.predsOf
  protectedBlocks :=
    ((List.range f.values.size).drop 1).filterMap (fun v =>
      if (f.value v).kind = .labelAddr then some (payloadIndex (f.value v)) else none) ++
    (f.edges.filter (·.terminator = .brIndirect)).map fun edge => (f.blockCall edge.call).target

def blockIsEmpty (block : BlockId) : Bool := (f.blockInsts block).length = 1

def replaceTerminatorWithJump (block : BlockId) (call : BlockCallId) : Function :=
  match f.lastInst? block with
  | none => f
  | some term =>
    let jump := (f.removeInst term).makeInst .jump 0 [] (BitVec.ofNat 64 call) (f.inst term).loc
    jump.2.appendInst block jump.1

/-- A branch on a constant, or with two equal edges, becomes a jump. -/
def foldBranch (block : BlockId) : Function × Bool :=
  match f.lastInst? block with
  | none => (f, false)
  | some term =>
    let data := f.inst term
    if data.op ≠ .brIf then (f, false)
    else
      let thenCall := auxLow data.aux
      let elseCall := auxHigh data.aux
      let condValue := f.value ((f.operands term).headD 0)
      if condValue.kind = .constInt then
        (f.replaceTerminatorWithJump block
          (if condValue.payload ≠ 0 then thenCall else elseCall), true)
      else if (f.blockCall thenCall).target = (f.blockCall elseCall).target ∧
          f.blockCallArgs thenCall = f.blockCallArgs elseCall then
        (f.replaceTerminatorWithJump block thenCall, true)
      else (f, false)

def foldBranches : Function × Bool :=
  f.layout.foldl (fun (g, changed) block =>
    let folded := g.foldBranch block
    (folded.1, changed || folded.2)) (f, false)

/-- The onward arguments with the parameters of the block replaced by what an
edge passes for them. -/
def translateArgs (block : BlockId) (incoming onwardArgs : List ValueId) : List ValueId :=
  onwardArgs.map fun arg =>
    if (f.value arg).kind = .blockParam ∧ payloadIndex (f.value arg) = block then
      incoming.getD (f.value arg).payload2.toNat 0
    else arg

/-- Edges of a switch carry no arguments, so one that would have to is left. -/
def skipsEdge (block : BlockId) (onwardArgs : List ValueId) (edge : PredEdge) : Bool :=
  edge.terminator = .switch ∧ (f.blockParams block ≠ [] ∨ onwardArgs ≠ [])

def redirectEdge (block target : BlockId) (onwardArgs : List ValueId) (edge : PredEdge) :
    Function :=
  let translated :=
    if f.blockParams block ≠ [] then
      f.translateArgs block (f.blockCallArgs edge.call) onwardArgs
    else onwardArgs
  (f.setBlockCallTarget edge.call target).setBlockCallArgs edge.call translated

/-- The loop over the edges into a block, with the flag that an edge was redirected. -/
def redirectEdges (block target : BlockId) (onwardArgs : List ValueId) :
    Function → List PredEdge → Function × Bool
  | f, [] => (f, false)
  | f, edge :: rest =>
    if f.skipsEdge block onwardArgs edge then redirectEdges block target onwardArgs f rest
    else
      ((redirectEdges block target onwardArgs
        (f.redirectEdge block target onwardArgs edge) rest).1, true)

/-- The onward edge of a block that only jumps elsewhere. -/
def onwardCall? (block : BlockId) : Option BlockCallId :=
  match f.lastInst? block with
  | none => none
  | some term =>
    if f.blockIsEmpty block ∧ (f.inst term).op = .jump ∧
        (f.blockCall (auxLow (f.inst term).aux)).target ≠ block then
      some (auxLow (f.inst term).aux)
    else none

/-- The edges into an empty block go on to its target, unless a parameter is
used elsewhere. -/
def foldForwardingBlock (facts : CfgFacts) (block : BlockId) : Function × Bool :=
  if block = f.entryBlock ∨ block ∈ facts.protectedBlocks then (f, false)
  else
    match f.onwardCall? block with
    | none => (f, false)
    | some onward =>
      let target := (f.blockCall onward).target
      let onwardArgs := f.blockCallArgs onward
      if ∃ param ∈ f.blockParams block, f.countUses param ≠ onwardArgs.count param then
        (f, false)
      else
        redirectEdges block target onwardArgs f (facts.preds block)

def renameParams (block : BlockId) (args : List ValueId) : Function :=
  (f.blockParams block).zipIdx.foldl
    (fun g (param, index) => g.replaceAllUses param (args.getD index 0)) f

def removeTerminator (block : BlockId) : Function :=
  match f.lastInst? block with
  | none => f
  | some term => f.removeInst term

def moveInsts (source block : BlockId) : Function :=
  (f.blockInsts block).foldl (fun g inst => (g.removeInst inst).appendInst source inst) f

/-- Puts a block behind its only predecessor, if that jumps to it. -/
def mergeIntoPredecessor (facts : CfgFacts) (block : BlockId) : Function × Bool :=
  if block = f.entryBlock ∨ block ∈ facts.protectedBlocks then (f, false)
  else
    match facts.preds block with
    | [edge] =>
      if edge.terminator ≠ .jump ∨ edge.source = block then (f, false)
      else
        let renamed := f.renameParams block (f.blockCallArgs edge.call)
        let opened := renamed.removeTerminator edge.source
        ((opened.moveInsts edge.source block).removeBlock block, true)
    | _ => (f, false)

def targetsOf (block : BlockId) : List BlockId :=
  (f.edgesOf block).map fun edge => (f.blockCall edge.call).target

/-- Control reaches the entry and the protected blocks from outside. -/
def removeUnreachableBlocks (fuel : ℕ) (facts : CfgFacts) : Option (Function × Bool) := do
  let reachable ← closure f.targetsOf fuel [] (facts.protectedBlocks.reverse ++ [f.entryBlock])
  let unreachable := f.layout.filter (· ∉ reachable)
  some (unreachable.foldl removeBlock f, !unreachable.isEmpty)

end Function

def firstChange (step : Function → BlockId → Function × Bool) :
    Function → List BlockId → Function × Bool
  | f, [] => (f, false)
  | f, block :: rest =>
    let tried := step f block
    if tried.2 then tried else firstChange step tried.1 rest

/-- A round ends with the first of its four parts that changes something. -/
def simplifyCfgRound (fuel : ℕ) (f : Function) : Option (Function × Bool) :=
  let facts := f.collectCfgFacts
  let branched := f.foldBranches
  if branched.2 then some branched
  else
    let forwarded := firstChange (·.foldForwardingBlock facts) branched.1 branched.1.layout
    if forwarded.2 then some forwarded
    else
      let merged := firstChange (·.mergeIntoPredecessor facts) forwarded.1 forwarded.1.layout
      if merged.2 then some merged
      else merged.1.removeUnreachableBlocks fuel facts

def runSimplifyCfg : ℕ → Function → Option (Function × Bool)
  | 0, _ => none
  | fuel + 1, f => do
      let round ← simplifyCfgRound (fuel + 1) f
      if round.2 then (runSimplifyCfg fuel round.1).map fun (g, _) => (g, true)
      else some round

end Aburi.Air
