import Aburi.Air.Built
import Aburi.Air.DominatorSoundness
import Aburi.Air.Verifier

/-!
# What an accepted function satisfies

The diagnostics of the verifier, read backwards: an accepted function has
blocks that end in their only terminator, edges to existing blocks, and uses
that passed the dominance check.
-/

namespace Aburi.Air

open Aburi.Lib List
open Bool (and_eq_true not_eq_true')

namespace VerifyResult

@[simp] theorem ok_nil : ok [] = true := rfl

@[simp] theorem ok_append (first second : List VerifierDiag) :
    ok (first ++ second) = (ok first && ok second) := by
  simp [ok]

theorem ok_flatMap {α : Type} {items : List α} {check : α → List VerifierDiag} :
    ok (items.flatMap check) = true ↔ ∀ item ∈ items, ok (check item) = true := by
  simp only [ok, all_flatMap, all_eq_true]

theorem ok_flatten {found : List (List VerifierDiag)} :
    ok found.flatten = true ↔ ∀ diags ∈ found, ok diags = true := by
  simp only [ok, all_flatten, all_eq_true]

end VerifyResult

variable {b : BlockId} {i : InstId} {what : String}

namespace FunctionVerifier

open VerifyResult

@[simp] theorem ok_error (f : Function) (message : String) (loc : SrcLoc) :
    ok (error f message loc) = false := rfl

@[simp] theorem ok_errorIf (f : Function) (condition : Bool) (message : String)
    (loc : SrcLoc) : ok (errorIf f condition message loc) = !condition := by
  cases condition <;> rfl

@[simp] theorem ok_complainIf (f : Function) (b : BlockId) (i : InstId)
    (condition : Bool) (what : String) :
    ok (complainIf f b i condition what) = !condition :=
  ok_errorIf f condition _ _

theorem ok_requireType {mod : Module} {f : Function} {index : ℕ} {expected : TypeId} :
    ok (requireType mod f b i index expected) = true ↔ opType f i index = expected := by
  simp [requireType]

theorem ok_requireKind {mod : Module} {f : Function} {holds : TypeId → Bool} {index : ℕ} :
    ok (requireKind mod f holds what b i index) = true ↔ holds (opType f i index) = true := by
  simp [requireKind]

theorem ok_requireResult {f : Function} {type : TypeId} :
    ok (requireResult f b i type what) = true ↔ (f.inst i).type = type := by
  simp [requireResult]

/-- A check that was made for each item and finished. -/
theorem mem_of_mapM {α β : Type} {check : α → Option β} {items : List α}
    {found : List β} (done : items.mapM check = some found) {item : α}
    (member : item ∈ items) : ∃ result ∈ found, check item = some result := by
  induction items generalizing found with
  | nil => cases member
  | cons head rest ih =>
    rw [mapM_cons] at done
    obtain ⟨first, headDone, continued⟩ := Option.bind_eq_some_iff.mp done
    obtain ⟨others, restDone, packed⟩ := Option.bind_eq_some_iff.mp continued
    cases packed
    rcases mem_cons.mp member with same | later
    · subst same
      exact ⟨first, mem_cons_self, headDone⟩
    · obtain ⟨result, isIn, checked⟩ := ih restDone later
      exact ⟨result, mem_cons_of_mem _ isIn, checked⟩

end FunctionVerifier

variable {call : BlockCallId}

theorem Function.successors_terminator {f : Function} (edge : call ∈ f.successors i) :
    (f.inst i).op.isTerminator = true := by
  cases op : (f.inst i).op <;> simp [Function.successors, op] at edge <;> rfl

/-- A block that ends in its only terminator. -/
structure Function.LaidOut (f : Function) (b : BlockId) : Prop where
  last : ∃ i, f.lastInst? b = some i ∧ (f.inst i).op.isTerminator = true
  only : ∀ i ∈ f.blockInsts b, (f.inst i).op.isTerminator = true → f.lastInst? b = some i

section

variable {f : Function} (laidOut : f.LaidOut b)
include laidOut

theorem Function.LaidOut.nonempty :
    0 < (f.blockInsts b).length := by
  obtain ⟨last, found, -⟩ := laidOut.last
  exact length_pos_of_mem (mem_of_getLast? found)

theorem Function.LaidOut.position (nodup : (f.blockInsts b).Nodup) {k : ℕ}
    (found : (f.blockInsts b)[k]? = some i) (terminator : (f.inst i).op.isTerminator = true) :
    k + 1 = (f.blockInsts b).length := by
  have isLast := laidOut.only i (mem_of_getElem? found) terminator
  rw [Function.lastInst?, getLast?_eq_getElem?] at isLast
  have inside := (List.getElem?_eq_some_iff.mp found).1
  have same : k = (f.blockInsts b).length - 1 :=
    (getElem?_inj inside nodup).mp (found.trans isLast.symm)
  omega

/-- The edges of a block are those of its terminator. -/
theorem Function.LaidOut.successorBlocks (member : i ∈ f.blockInsts b)
    (terminator : (f.inst i).op.isTerminator = true) :
    f.successorBlocks b = (f.successors i).map fun call => (f.blockCall call).target := by
  rw [Function.successorBlocks, laidOut.only i member terminator]
  simp [terminator]

end

namespace FunctionVerifier

open VerifyResult

variable {mod : Module} {f : Function}

theorem laidOut_of_ok (fine : ok (checkBlockLayout mod f b) = true) :
    f.LaidOut b := by
  rw [checkBlockLayout, ok_append, and_eq_true] at fine
  cases found : f.lastInst? b with
  | none => simp [found] at fine
  | some last =>
    simp only [found, ok_append, ok_errorIf, Bool.not_not, and_eq_true, ok_flatMap] at fine
    obtain ⟨-, insts, terminator⟩ := fine
    refine ⟨⟨last, found, terminator⟩, ?_⟩
    intro i member ends
    obtain ⟨position, at'⟩ := getElem?_of_mem member
    have checked := insts (i, position) (mk_mem_zipIdx_iff_getElem?.mpr at')
    simp only [checkInstLayout, ok_append, ok_errorIf, and_eq_true, ends,
      Bool.true_and, not_eq_true', bne_eq_false_iff_eq] at checked
    rw [found, checked.1.2]

/-- An accepted function with a body, and the tree its uses were checked
against. -/
structure Accepted (mod : Module) (f : Function) (fuel : ℕ) (tree : DominatorTree) :
    Prop where
  computed : DominatorTree.compute fuel f = some tree
  structured : ok (checkStructure mod f) = true
  dominance : ∀ b ∈ f.layout, tree.reachable b = true →
    ∃ diags, checkBlockDominance f fuel tree b = some diags ∧ ok diags = true

theorem accepted_of_accepts (accepts : Accepts mod f) (defined : f.isDeclaration = false) :
    ∃ fuel tree, Accepted mod f fuel tree := by
  obtain ⟨fuel, diags, finished, fine⟩ := accepts
  rw [verifyFunction, run, if_neg (by simp [defined])] at finished
  obtain ⟨tree, computed, rest⟩ := Option.bind_eq_some_iff.mp finished
  obtain ⟨found, checked, packed⟩ := Option.bind_eq_some_iff.mp rest
  cases packed
  simp only [ok_append, and_eq_true] at fine
  refine ⟨fuel, tree, computed, fine.1.2, ?_⟩
  intro b member reachable
  obtain ⟨blockDiags, isIn, blockChecked⟩ := mem_of_mapM checked member
  rw [checkBlockReached, if_pos reachable] at blockChecked
  exact ⟨blockDiags, blockChecked, ok_flatten.1 fine.2 blockDiags isIn⟩

namespace Accepted

variable {fuel : ℕ} {tree : DominatorTree} (accepted : Accepted mod f fuel tree)

include accepted

theorem laidOut (member : b ∈ f.layout) : f.LaidOut b := by
  have fine := accepted.structured
  rw [checkStructure] at fine
  simp only [ok_append, and_eq_true, ok_flatMap] at fine
  exact laidOut_of_ok (fine.1.2 b member)

theorem inst_ok (member : b ∈ f.layout) (linked : i ∈ f.blockInsts b) :
    ok (checkInst mod f b i) = true := by
  have fine := accepted.structured
  rw [checkStructure] at fine
  simp only [ok_append, and_eq_true, ok_flatMap] at fine
  exact fine.2 b member i linked

/-- Every use in a reachable linked block passed its check. -/
theorem use_ok (member : b ∈ f.layout) (reachable : tree.reachable b = true)
    (linked : i ∈ f.blockInsts b) {v : ValueId} (used : v ∈ usesOf f i) :
    ∃ usePos diags, instPos f i = some usePos ∧
      checkUse f fuel tree b i usePos v = some diags ∧ ok diags = true := by
  obtain ⟨blockDiags, checked, fine⟩ := accepted.dominance b member reachable
  obtain ⟨found, instsChecked, packed⟩ := Option.bind_eq_some_iff.mp checked
  cases packed
  obtain ⟨instDiags, isIn, instChecked⟩ := mem_of_mapM instsChecked linked
  have instFine := ok_flatten.1 fine instDiags isIn
  obtain ⟨usePos, positioned, continued⟩ := Option.bind_eq_some_iff.mp instChecked
  obtain ⟨uses, usesChecked, packed⟩ := Option.bind_eq_some_iff.mp continued
  cases packed
  obtain ⟨diags, inUses, useChecked⟩ := mem_of_mapM usesChecked used
  exact ⟨usePos, diags, positioned, useChecked, ok_flatten.1 instFine diags inUses⟩

end Accepted

/-- The constants that the verifier accepts as operands. -/
def CanonicalData (mod : Module) (data : ValueData) : Prop :=
  match data.kind with
  | .constInt => mod.types.isInt data.type = true ∧
      constIntCanonical (mod.types.intWidth data.type) data = true
  | .constFloat => mod.types.isFloat data.type = true ∧
      constFloatCanonical (mod.types.type data.type).floatKind data = true
  | _ => True

theorem operand_of_ok {v : ValueId} (fine : ok (checkOperandValue mod f b i v).2 = true) :
    (checkOperandValue mod f b i v).1 = true ∧ f.isValidValue v = true ∧
      CanonicalData mod (f.value v) := by
  rw [checkOperandValue] at fine ⊢
  split at fine
  · simp at fine
  rename_i valid
  rw [if_neg valid]
  have valid : f.isValidValue v = true := by simpa using valid
  rw [CanonicalData]
  dsimp only at fine ⊢
  cases kind : (f.value v).kind with
  | constInt =>
    simp only [kind] at fine ⊢
    split at fine
    · simp at fine
    rename_i isInt
    rw [if_neg isInt]
    split at fine
    · simp at fine
    rename_i canonical
    rw [if_neg canonical]
    exact ⟨rfl, valid, by simpa using isInt, by simpa using canonical⟩
  | constFloat =>
    simp only [kind] at fine ⊢
    split at fine
    · simp at fine
    rename_i isFloat
    rw [if_neg isFloat]
    split at fine
    · simp at fine
    rename_i canonical
    rw [if_neg canonical]
    exact ⟨rfl, valid, by simpa using isFloat, by simpa using canonical⟩
  | labelAddr =>
    simp only [kind] at fine ⊢
    split at fine
    · simp at fine
    rename_i validBlock
    rw [if_neg validBlock]
    exact ⟨rfl, valid, trivial⟩
  | _ => exact ⟨rfl, valid, trivial⟩

/-- The types that the verifier accepts for values. -/
def SoundType (mod : Module) (type : TypeId) : Prop :=
  mod.types.isVoid type = false ∧
    (mod.types.isInt type = true → intWidthAllowed (mod.types.intWidth type) = true)

theorem soundType_of_ok {type : TypeId} (fine : ok (checkValueType mod f type what) = true) :
    SoundType mod type := by
  rw [checkValueType] at fine
  split at fine
  · simp at fine
  split at fine
  · simp at fine
  rename_i notVoid
  refine ⟨by simpa using notVoid, ?_⟩
  intro isInt
  simpa [isInt] using fine

/-- What the checks of an accepted instruction say. -/
structure CheckedInst (mod : Module) (f : Function) (b : BlockId) (i : InstId) : Prop where
  arity : ∀ count, (f.inst i).op.operandCount = some count → (f.operands i).length = count
  operands : ∀ v ∈ f.operands i, f.isValidValue v = true ∧ CanonicalData mod (f.value v)
  resultType : (f.inst i).result ≠ 0 → SoundType mod (f.inst i).type
  operandTypes : ∀ v ∈ f.operands i, SoundType mod (f.valueType v)
  memory : ok (checkMemory mod f b i) = true
  arithmetic : ok (checkArithmetic mod f b i) = true
  runtime : ok (checkRuntime mod f b i) = true
  terminator : ok (checkTerminator mod f b i) = true

theorem checkedInst_of_ok (fine : ok (checkInst mod f b i) = true) : CheckedInst mod f b i := by
  rw [checkInst] at fine
  dsimp only at fine
  split at fine
  · simp at fine
  rename_i counted
  have arity : ∀ count, (f.inst i).op.operandCount = some count →
      (f.operands i).length = count := by
    intro count known
    by_contra different
    rw [known, Option.filter_some_pos (by simpa [Function.operands] using different)] at counted
    cases counted
  rw [ok_append, and_eq_true] at fine
  obtain ⟨operandsFine, rest⟩ := fine
  have each : ∀ v ∈ f.operands i, ok (checkOperandValue mod f b i v).2 = true := by
    intro v member
    simp only [checkOperandValues, flatMap_map, ok_flatMap] at operandsFine
    exact operandsFine v member
  have flagged : (checkOperandValues mod f b i).1 = true := by
    simp only [checkOperandValues, all_map, all_eq_true]
    intro v member
    exact (operand_of_ok (each v member)).1
  rw [if_pos flagged] at rest
  simp only [ok_append, and_eq_true] at rest
  obtain ⟨⟨⟨⟨⟨⟨-, result⟩, types⟩, memory⟩, arithmetic⟩, runtime⟩, terminator⟩ := rest
  refine ⟨arity, fun v member => (operand_of_ok (each v member)).2, ?_, ?_, memory,
    arithmetic, runtime, terminator⟩
  · intro produces
    rw [if_neg produces] at result
    exact soundType_of_ok result
  · intro v member
    rw [ok_flatMap] at types
    obtain ⟨index, found⟩ := getElem?_of_mem member
    exact soundType_of_ok (types (v, index) (mk_mem_zipIdx_iff_getElem?.mpr found))

theorem Accepted.checkedInst {fuel : ℕ} {tree : DominatorTree} (accepted : Accepted mod f fuel tree)
    (member : b ∈ f.layout) (linked : i ∈ f.blockInsts b) : CheckedInst mod f b i :=
  checkedInst_of_ok (accepted.inst_ok member linked)

/-- What the checks of an accepted edge say. -/
structure CheckedEdge (f : Function) (call : BlockCallId) : Prop where
  valid : f.isValidBlockCall call = true
  target : f.isValidBlock (f.blockCall call).target = true
  notEntry : (f.blockCall call).target ≠ f.entryBlock
  length : (f.blockCallArgs call).length = (f.blockParams (f.blockCall call).target).length
  args : ∀ arg ∈ f.blockCallArgs call, f.isValidValue arg = true
  types : ∀ (index : ℕ) arg param, (f.blockCallArgs call)[index]? = some arg →
    (f.blockParams (f.blockCall call).target)[index]? = some param →
    f.valueType arg = f.valueType param

theorem checkedEdge_of_ok {allowArgs allowLandingPad : Bool}
    (fine : ok (checkBlockCall mod f b i call allowArgs allowLandingPad) = true) :
    CheckedEdge f call := by
  rw [checkBlockCall] at fine
  split at fine
  · simp at fine
  rename_i valid
  dsimp only at fine
  split at fine
  · simp at fine
  rename_i target
  simp only [ok_append, ok_complainIf, and_eq_true, not_eq_true',
    beq_eq_false_iff_ne] at fine
  obtain ⟨⟨notEntry, -⟩, rest⟩ := fine
  split at rest
  · simp at rest
  split at rest
  · simp at rest
  rename_i length
  rw [ok_flatMap] at rest
  have length : (f.blockCallArgs call).length =
      (f.blockParams (f.blockCall call).target).length := not_not.mp length
  have each : ∀ (index : ℕ) arg param, (f.blockCallArgs call)[index]? = some arg →
      (f.blockParams (f.blockCall call).target)[index]? = some param →
      f.isValidValue arg = true ∧ f.valueType arg = f.valueType param := by
    intro index arg param isArg isParam
    have paired : (f.blockCallArgs call |>.zip
        (f.blockParams (f.blockCall call).target))[index]? = some (arg, param) :=
      getElem?_zip_eq_some.mpr ⟨isArg, isParam⟩
    have checked := rest ((arg, param), index) (mk_mem_zipIdx_iff_getElem?.mpr paired)
    dsimp only at checked
    rw [checkBranchArg] at checked
    split at checked
    · simp at checked
    rename_i validArg
    simp only [ok_errorIf, not_eq_true', bne_eq_false_iff_eq] at checked
    exact ⟨by simpa using validArg, checked⟩
  refine ⟨by simpa using valid, by simpa using target, notEntry, length, ?_, ?_⟩
  · intro arg member
    obtain ⟨index, isArg⟩ := getElem?_of_mem member
    have inside := (List.getElem?_eq_some_iff.mp isArg).1
    rw [length] at inside
    exact (each index arg _ isArg (getElem?_eq_getElem inside)).1
  · intro index arg param isArg isParam
    exact (each index arg param isArg isParam).2

theorem switchCases_of_ok {seen : List Word} {cases : List SwitchCase}
    (fine : ok (checkSwitchCases mod f b i seen cases) = true) :
    ∀ entry ∈ cases, CheckedEdge f entry.target := by
  induction cases generalizing seen with
  | nil => exact fun entry member => nomatch member
  | cons next rest ih =>
    simp only [checkSwitchCases, ok_append, and_eq_true] at fine
    intro entry member
    rcases mem_cons.mp member with first | later
    · rw [first]
      exact checkedEdge_of_ok fine.1.2
    · exact ih fine.2 entry later

theorem invokeEdges_of_ok (fine : ok (checkInvokeEdges mod f b i) = true) :
    ∀ call ∈ [auxLow (f.inst i).aux2, auxHigh (f.inst i).aux2], CheckedEdge f call := by
  simp only [checkInvokeEdges, ok_append, and_eq_true] at fine
  intro call member
  rcases mem_cons.mp member with normal | unwind
  · rw [normal]
    exact checkedEdge_of_ok fine.1.1
  · rw [mem_singleton.mp unwind]
    exact checkedEdge_of_ok fine.1.2

theorem labelEdge_of_ok (fine : ok (checkLabelEdge mod f b i what call) = true) :
    CheckedEdge f call := by
  simp only [checkLabelEdge, ok_append, and_eq_true] at fine
  exact checkedEdge_of_ok fine.1

theorem CheckedInst.edge (checked : CheckedInst mod f b i) (edge : call ∈ f.successors i) :
    CheckedEdge f call := by
  have fine := checked.terminator
  rw [checkTerminator] at fine
  cases op : (f.inst i).op <;> simp only [Function.successors, op] at edge fine <;>
    try exact absurd edge not_mem_nil
  case jump =>
    rw [mem_singleton.mp edge]
    exact checkedEdge_of_ok fine
  case brIf =>
    simp only [ok_append, and_eq_true] at fine
    rcases mem_cons.mp edge with first | second
    · rw [first]
      exact checkedEdge_of_ok fine.1.2
    · rw [mem_singleton.mp second]
      exact checkedEdge_of_ok fine.2
  case switch =>
    simp only [ok_append, and_eq_true] at fine
    rcases mem_cons.mp edge with first | later
    · rw [first]
      exact checkedEdge_of_ok fine.1.2
    · obtain ⟨entry, member, rfl⟩ := List.mem_map.mp later
      have rest := fine.2
      split at rest
      · simp at rest
      · exact switchCases_of_ok rest entry member
  case brIndirect =>
    have rest := fine
    simp only [ok_append, and_eq_true] at rest
    have inner := rest.2
    split at inner
    · simp at inner
    · simp only [ok_append, and_eq_true, ok_flatMap] at inner
      exact labelEdge_of_ok (inner.2 call edge)
  case asmGoto =>
    split at fine
    · simp at fine
    simp only [ok_append, and_eq_true] at fine
    have inner := fine.2
    split at inner
    · simp at inner
    split at inner
    · simp at inner
    rw [ok_flatMap] at inner
    exact labelEdge_of_ok (inner call edge)
  case invoke =>
    split at fine
    · simp at fine
    simp only [ok_append, and_eq_true] at fine
    exact invokeEdges_of_ok fine.2 call edge
  case invokeIndirect =>
    rw [checkIndirectSite] at fine
    split at fine
    · simp at fine
    split at fine
    · simp at fine
    simp only [ok_append, and_eq_true] at fine
    exact invokeEdges_of_ok fine.2.2 call edge

/-- Consistent functions record for each linked instruction its only place. -/
theorem instPos_iff (consistent : f.Consistent) (member : b ∈ f.layout)
    (owner : (f.inst i).block = b) {k : ℕ} :
    instPos f i = some k ↔ (f.blockInsts b)[k]? = some i := by
  have entries : ∀ {position : ℕ},
      (i, position) ∈ (f.layout.flatMap fun b => (f.blockInsts b).zipIdx).reverse ↔
        (f.blockInsts b)[position]? = some i := by
    intro position
    rw [mem_reverse, mem_flatMap]
    constructor
    · rintro ⟨other, -, listed⟩
      have found := mk_mem_zipIdx_iff_getElem?.mp listed
      have owned := (consistent.attached other i (mem_of_getElem? found)).2.2
      rw [← owner, owned]
      exact found
    · intro found
      exact ⟨b, member, mk_mem_zipIdx_iff_getElem?.mpr found⟩
  have unique : ∀ {first second : ℕ}, (f.blockInsts b)[first]? = some i →
      (f.blockInsts b)[second]? = some i → first = second := by
    intro first second foundFirst foundSecond
    have inside := (List.getElem?_eq_some_iff.mp foundFirst).1
    exact (getElem?_inj inside (consistent.instsNodup b)).mp (foundFirst.trans foundSecond.symm)
  constructor
  · intro looked
    rw [instPos, lookup_eq_some_iff] at looked
    obtain ⟨before, after, split, -⟩ := looked
    refine entries.mp ?_
    rw [split]
    simp
  · intro found
    have listed := entries.mpr found
    have present : (instPos f i).isSome = true := by
      rw [instPos, lookup_isSome_iff]
      exact ⟨(i, k), listed, by simp⟩
    obtain ⟨position, looked⟩ := Option.isSome_iff_exists.mp present
    have same : position = k := by
      refine unique (entries.mp ?_) found
      rw [instPos, lookup_eq_some_iff] at looked
      obtain ⟨before, after, split, -⟩ := looked
      rw [split]
      simp
    rw [looked, same]

end FunctionVerifier

end Aburi.Air
