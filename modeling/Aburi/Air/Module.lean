import Aburi.Air.Function

/-!
# Modules

The tables of a module that the verifier and the passes read: types,
functions, globals and the payloads of inline assembly and landing pads.
-/

namespace Aburi.Air

/-- What is read of a global is that it is there. -/
structure GlobalData where
  name : String := ""
  deriving DecidableEq, Inhabited

structure AsmPayload where
  constraints : List String := []
  operandTypes : List TypeId := []
  registerBindings : List String := []
  deriving DecidableEq, Inhabited

structure EhLandingPadPayload where
  isCleanup : Bool := false
  hasCatchAll : Bool := false
  clauseTypeinfos : List GlobalId := []
  deriving DecidableEq, Inhabited

/-- Functions and globals are numbered from one. -/
structure Module where
  types : TypeTable
  pointerWidth : ℕ
  functions : List Function := []
  globals : List GlobalData := []
  asmPayloads : List AsmPayload := []
  ehLandingPadPayloads : List EhLandingPadPayload := []

namespace Module

def isValidFunc (mod : Module) (id : FuncId) : Bool :=
  decide (0 < id) && decide (id ≤ mod.functions.length)

def isValidGlobal (mod : Module) (id : GlobalId) : Bool :=
  decide (0 < id) && decide (id ≤ mod.globals.length)

def function (mod : Module) (id : FuncId) : Function :=
  mod.functions.getD (id - 1) { name := "", sig := 0 }

def asmPayload (mod : Module) (index : ℕ) : AsmPayload :=
  mod.asmPayloads.getD index {}

def ehLandingPadPayload (mod : Module) (index : ℕ) : EhLandingPadPayload :=
  mod.ehLandingPadPayloads.getD index {}

end Module

end Aburi.Air
