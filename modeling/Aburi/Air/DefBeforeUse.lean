import Aburi.Air.VerifierFacts

/-!
# Definitions come before uses

An execution follows edges from the entry and collects the values it has
defined.  The unwind edge of an invoke leaves before the result exists.  For a
function that the verifier accepts, every read finds its value defined exactly
when no read parameter was taken from its block and every read of an invoke
result lies behind the normal edge of that invoke: the verifier checks neither.
-/

namespace Aburi.Air

open Aburi.Lib List Nat

namespace Function

def definedOnEdge (f : Function) (i : InstId) (index : ℕ) (defined : Set ValueId) :
    Set ValueId :=
  {v | v ∈ defined ∨ f.producesOnEdge i index = true ∧ v = (f.inst i).result}

/-- An execution stands in front of an instruction of a block, with the
values it has defined so far. -/
inductive Execution (f : Function) : BlockId → ℕ → Set ValueId → Prop
  | entry {b : BlockId} {rest : List BlockId} : f.layout = b :: rest →
      Execution f b 0 {v | v ∈ f.blockParams b}
  | next {b : BlockId} {k : ℕ} {defined : Set ValueId} {i : InstId} :
      Execution f b k defined → (f.blockInsts b)[k]? = some i →
      (f.inst i).op.isTerminator = false →
      Execution f b (k + 1) {v | v ∈ defined ∨ v = (f.inst i).result}
  | edge {b : BlockId} {k : ℕ} {defined : Set ValueId} {i : InstId} {index : ℕ}
      {call : BlockCallId} :
      Execution f b k defined → (f.blockInsts b)[k]? = some i →
      (f.successors i)[index]? = some call →
      Execution f (f.blockCall call).target 0
        {v | v ∈ f.definedOnEdge i index defined ∨
          v ∈ f.blockParams (f.blockCall call).target}

/-- The values that only an execution can define. -/
def Computed (f : Function) (v : ValueId) : Prop :=
  f.isValidValue v = true ∧ ((f.value v).kind = .instResult ∨ (f.value v).kind = .blockParam)

/-- Every operand, and every argument of an edge that is taken, has been
defined earlier in the execution. -/
def ReadsDefined (f : Function) : Prop :=
  ∀ b k defined i, f.Execution b k defined → (f.blockInsts b)[k]? = some i →
    (∀ v ∈ f.operands i, f.Computed v → v ∈ defined) ∧
      ∀ index call, (f.successors i)[index]? = some call →
        ∀ v ∈ f.blockCallArgs call, f.Computed v → v ∈ f.definedOnEdge i index defined

abbrev Reached (f : Function) (b : BlockId) : Prop :=
  Cfg.Reached f.successorBlocks f.entryBlock b

/-- No edge leads to a block that was removed. -/
def EdgesStayLinked (f : Function) : Prop :=
  ∀ b ∈ f.layout, ∀ target ∈ f.successorBlocks b, target ∈ f.layout

/-- A parameter that is read is still in the list of its block. -/
def ReadParamsAttached (f : Function) : Prop :=
  ∀ b, f.Reached b → ∀ i ∈ f.blockInsts b, ∀ v ∈ FunctionVerifier.usesOf f i,
    f.isValidValue v = true → (f.value v).kind = .blockParam →
      v ∈ f.blockParams (payloadIndex (f.value v))

/-- The result of an invoke is read only in blocks that every path enters
after taking the normal edge of the invoke. -/
def InvokeResultsGuarded (f : Function) : Prop :=
  ∀ b, f.Reached b → ∀ i ∈ f.blockInsts b, ∀ v ∈ FunctionVerifier.usesOf f i,
    f.isValidValue v = true → (f.value v).kind = .instResult →
      (f.inst (f.defInst v)).op.isInvoke = true →
        Cfg.EdgeDominates f.successorBlocks f.entryBlock ((f.inst (f.defInst v)).block, 0) b

/-- What an execution along a walk has defined in front of position `k` of
the block it stands in. -/
def DefinedAlong (f : Function) (trail : List (BlockId × ℕ)) (b : BlockId) (k : ℕ) :
    Set ValueId :=
  {v | v ∈ f.blockParams b ∨
    (∃ j < k, ∃ i, (f.blockInsts b)[j]? = some i ∧ v = (f.inst i).result) ∨
    ∃ left ∈ trail, v ∈ f.blockParams left.1 ∨
      ∃ i ∈ f.blockInsts left.1, v = (f.inst i).result ∧
        f.producesOnEdge i left.2 = true}

variable {f : Function}

theorem definedAlong_entry (b : BlockId) :
    f.DefinedAlong [] b 0 = {v | v ∈ f.blockParams b} := by
  ext v
  simp [DefinedAlong]

variable {trail : List (BlockId × ℕ)} {b : BlockId} {k : ℕ} {i : InstId}

theorem definedAlong_next (found : (f.blockInsts b)[k]? = some i) :
    f.DefinedAlong trail b (k + 1) =
      {v | v ∈ f.DefinedAlong trail b k ∨ v = (f.inst i).result} := by
  ext v
  simp only [DefinedAlong, Set.mem_ofPred_eq]
  constructor
  · rintro (param | ⟨j, before, other, foundOther, same⟩ | left)
    · exact .inl (.inl param)
    · rcases Nat.lt_succ_iff_lt_or_eq.mp before with earlier | atK
      · exact .inl (.inr (.inl ⟨j, earlier, other, foundOther, same⟩))
      · rw [atK, found] at foundOther
        cases foundOther
        exact .inr same
    · exact .inl (.inr (.inr left))
  · rintro ((param | ⟨j, before, rest⟩ | left) | same)
    · exact .inl param
    · exact .inr (.inl ⟨j, lt_succ_of_lt before, rest⟩)
    · exact .inr (.inr left)
    · exact .inr (.inl ⟨k, lt_succ_self k, i, found, same⟩)

theorem producesOnEdge_of_not_terminator {index : ℕ} (inside : (f.inst i).op.isTerminator = false) :
    f.producesOnEdge i index = true := by
  have notInvoke : (f.inst i).op.isInvoke = false := by
    cases op : (f.inst i).op <;> simp [Opcode.isInvoke] <;>
      simp [op, Opcode.isTerminator, Opcode.traits] at inside
  simp [producesOnEdge, notInvoke]

theorem definedAlong_edge {target : BlockId} {index : ℕ} (laidOut : f.LaidOut b)
    (nodup : (f.blockInsts b).Nodup) (found : (f.blockInsts b)[k]? = some i)
    (terminator : (f.inst i).op.isTerminator = true) :
    f.DefinedAlong ((b, index) :: trail) target 0 =
      {v | v ∈ f.definedOnEdge i index (f.DefinedAlong trail b k) ∨
        v ∈ f.blockParams target} := by
  have atEnd := laidOut.position nodup found terminator
  ext v
  simp only [DefinedAlong, definedOnEdge, Set.mem_ofPred_eq]
  constructor
  · rintro (param | ⟨j, negative, -⟩ | ⟨left, member, rest⟩)
    · exact .inr param
    · exact absurd negative (Nat.not_lt_zero j)
    rcases mem_cons.mp member with newest | older
    · subst newest
      rcases rest with param | ⟨other, linked, same, produced⟩
      · exact .inl (.inl (.inl param))
      obtain ⟨j, at'⟩ := getElem?_of_mem linked
      have inside := (List.getElem?_eq_some_iff.mp at').1
      rcases Nat.lt_or_eq_of_le (le_of_lt_succ (atEnd ▸ inside)) with before | last
      · exact .inl (.inl (.inr (.inl ⟨j, before, other, at', same⟩)))
      · rw [last, found] at at'
        cases at'
        exact .inl (.inr ⟨produced, same⟩)
    · exact .inl (.inl (.inr (.inr ⟨left, older, rest⟩)))
  · rintro (((param | ⟨j, before, other, at', same⟩ | ⟨left, member, rest⟩) |
      ⟨produced, same⟩) | param)
    · exact .inr (.inr ⟨(b, index), mem_cons_self, .inl param⟩)
    · -- an instruction in front of the terminator is not a terminator itself
      have inside : (f.inst other).op.isTerminator = false := by
        cases ends : (f.inst other).op.isTerminator with
        | false => rfl
        | true =>
          have alsoAtEnd := laidOut.position nodup at' ends
          omega
      exact .inr (.inr ⟨(b, index), mem_cons_self, .inr ⟨other,
        mem_of_getElem? at', same, producesOnEdge_of_not_terminator inside⟩⟩)
    · exact .inr (.inr ⟨left, mem_cons_of_mem _ member, rest⟩)
    · exact .inr (.inr ⟨(b, index), mem_cons_self, .inr ⟨i, mem_of_getElem? found, same, produced⟩⟩)
    · exact .inl param

section Walks

variable (laidOut : ∀ b ∈ f.layout, f.LaidOut b) (consistent : f.Consistent)
  (stays : f.EdgesStayLinked)

include stays in
theorem linked_of_reached (defined : f.isDeclaration = false) (reached : f.Reached b) :
    b ∈ f.layout := by
  obtain ⟨trail, walk⟩ := reached
  refine walk.induct (· ∈ f.layout) ?_ ?_
  · cases layout : f.layout with
    | nil => simp [isDeclaration, layout] at defined
    | cons b rest => simp [entryBlock, layout]
  · intro b next linked edge
    exact stays b linked next edge

include laidOut consistent stays

theorem Execution.walk {defined : Set ValueId} (execution : f.Execution b k defined) :
    b ∈ f.layout ∧ ∃ trail, Cfg.Walk f.successorBlocks f.entryBlock trail b ∧
      defined = f.DefinedAlong trail b k := by
  induction execution with
  | @entry b rest layout =>
    refine ⟨by simp [layout], [], ?_, (definedAlong_entry b).symm⟩
    have atEntry : f.entryBlock = b := by simp [entryBlock, layout]
    exact atEntry ▸ .start
  | next _ found _ ih =>
    obtain ⟨linked, trail, walk, same⟩ := ih
    refine ⟨linked, trail, walk, ?_⟩
    rw [definedAlong_next found, same]
  | @edge b k defined i index call _ found edge ih =>
    obtain ⟨linked, trail, walk, same⟩ := ih
    have terminator := successors_terminator (mem_of_getElem? edge)
    have taken : (f.successorBlocks b)[index]? = some (f.blockCall call).target := by
      rw [(laidOut b linked).successorBlocks (mem_of_getElem? found) terminator]
      simp [edge]
    refine ⟨stays b linked _ (mem_of_getElem? taken), (b, index) :: trail, walk.step taken, ?_⟩
    rw [definedAlong_edge (laidOut b linked) (consistent.instsNodup b) found terminator, same]

/-- Every walk can be executed, up to any instruction of its last block. -/
theorem execution_of_walk (defined : f.isDeclaration = false)
    (walk : Cfg.Walk f.successorBlocks f.entryBlock trail b)
    (inside : k < (f.blockInsts b).length) :
    f.Execution b k (f.DefinedAlong trail b k) := by
  have within : ∀ {trail b}, b ∈ f.layout →
      f.Execution b 0 (f.DefinedAlong trail b 0) → ∀ {k},
      k < (f.blockInsts b).length → f.Execution b k (f.DefinedAlong trail b k) := by
    intro trail b linked start k inside
    induction k with
    | zero => exact start
    | succ k ih =>
      have before : k < (f.blockInsts b).length := lt_of_succ_lt inside
      have found : (f.blockInsts b)[k]? = some (f.blockInsts b)[k] :=
        List.getElem?_eq_getElem before
      rw [definedAlong_next found]
      refine (ih before).next found ?_
      cases ends : (f.inst (f.blockInsts b)[k]).op.isTerminator with
      | false => rfl
      | true =>
        have atEnd := (laidOut b linked).position (consistent.instsNodup b) found ends
        omega
  induction walk generalizing k with
  | start =>
    have linked := linked_of_reached stays defined ⟨[], .start⟩
    refine within linked ?_ inside
    rw [definedAlong_entry]
    cases layout : f.layout with
    | nil => simp [layout] at linked
    | cons b rest =>
      have atEntry : f.entryBlock = b := by simp [entryBlock, layout]
      rw [atEntry]
      exact .entry layout
  | @step trail b next index before taken ih =>
    have linked := linked_of_reached stays defined ⟨trail, before⟩
    have nextLinked := linked_of_reached stays defined ⟨_, before.step taken⟩
    refine within nextLinked ?_ inside
    obtain ⟨last, isLast, terminator⟩ := (laidOut b linked).last
    have member : last ∈ f.blockInsts b := mem_of_getLast? isLast
    obtain ⟨j, found⟩ := getElem?_of_mem member
    rw [(laidOut b linked).successorBlocks member terminator, getElem?_map] at taken
    obtain ⟨call, edge, target⟩ := Option.map_eq_some_iff.mp taken
    rw [definedAlong_edge (laidOut b linked) (consistent.instsNodup b) found terminator, ← target]
    exact (ih (List.getElem?_eq_some_iff.mp found).1).edge found edge

end Walks

open FunctionVerifier VerifyResult

variable {v : ValueId}

theorem mem_usesOf :
    v ∈ usesOf f i ↔ v ∈ f.operands i ∨
      ∃ (index : ℕ) (call : BlockCallId), (f.successors i)[index]? = some call ∧
        v ∈ f.blockCallArgs call := by
  rw [usesOf, mem_append, mem_flatMap]
  constructor
  · rintro (operand | ⟨call, edge, arg⟩)
    · exact .inl operand
    · obtain ⟨index, at'⟩ := getElem?_of_mem edge
      exact .inr ⟨index, call, at', arg⟩
  · rintro (operand | ⟨index, call, at', arg⟩)
    · exact .inl operand
    · exact .inr ⟨call, mem_of_getElem? at', arg⟩

section Soundness

variable {mod : Module} {fuel : ℕ} {tree : DominatorTree}

theorem entryBlock_mem (defined : f.isDeclaration = false) : f.entryBlock ∈ f.layout := by
  cases layout : f.layout with
  | nil => simp [isDeclaration, layout] at defined
  | cons b rest => simp [entryBlock, layout]

theorem Consistent.ne_zero (consistent : f.Consistent) (linked : b ∈ f.layout) : b ≠ 0 :=
  Nat.pos_iff_ne_zero.mp (Slots.isValid_iff.mp (consistent.layoutValid b linked)).1

section

variable (consistent : f.Consistent) (accepted : Accepted mod f fuel tree) (linked : b ∈ f.layout)
  (reachable : tree.reachable b = true)
include accepted linked reachable

include consistent in
/-- A result that is used: its instruction comes first in the block, or its block passed a
dominance check. -/
theorem result_checked (found : (f.blockInsts b)[k]? = some i) (used : v ∈ usesOf f i)
    (valid : f.isValidValue v = true) (isResult : (f.value v).kind = .instResult) :
    (∃ j < k, (f.blockInsts b)[j]? = some (f.defInst v)) ∨
      (f.inst (f.defInst v)).block ≠ b ∧
        f.defInst v ∈ f.blockInsts (f.inst (f.defInst v)).block ∧
        tree.dominates fuel (f.inst (f.defInst v)).block b = some true := by
  have member := mem_of_getElem? found
  obtain ⟨usePos, diags, positioned, checked, fine⟩ := accepted.use_ok linked reachable member used
  have owner := (consistent.attached b i member).2.2
  have atUse := (instPos_iff consistent linked owner).mp positioned
  have samePos : usePos = k :=
    (getElem?_inj (List.getElem?_eq_some_iff.mp atUse).1
      (consistent.instsNodup b)).mp (atUse.trans found.symm)
  simp only [checkUse, valid, Bool.not_true, Bool.false_eq_true, if_false, isResult] at checked
  split at checked
  · cases checked
    simp at fine
  split at checked
  case isTrue sameBlock =>
    obtain ⟨defPos, defPositioned, packed⟩ := Option.bind_eq_some_iff.mp checked
    cases packed
    simp only [ok_errorIf, Bool.not_eq_true', decide_eq_false_iff_not, not_le] at fine
    exact .inl ⟨defPos, samePos ▸ fine, (instPos_iff consistent linked sameBlock).mp defPositioned⟩
  case isFalse otherBlock =>
    obtain ⟨dominated, answer, packed⟩ := Option.bind_eq_some_iff.mp checked
    cases packed
    simp only [ok_errorIf, Bool.not_not] at fine
    exact .inr ⟨otherBlock, consistent.linked _ ‹_›, fine ▸ answer⟩

theorem param_checked (member : i ∈ f.blockInsts b) (used : v ∈ usesOf f i)
    (valid : f.isValidValue v = true) (isParam : (f.value v).kind = .blockParam) :
    payloadIndex (f.value v) = b ∨
      payloadIndex (f.value v) ≠ b ∧
        tree.dominates fuel (payloadIndex (f.value v)) b = some true := by
  obtain ⟨usePos, diags, -, checked, fine⟩ := accepted.use_ok linked reachable member used
  simp only [checkUse, valid, Bool.not_true, Bool.false_eq_true, if_false, isParam] at checked
  split at checked
  case isTrue same => exact .inl same
  case isFalse otherBlock =>
    obtain ⟨dominated, answer, packed⟩ := Option.bind_eq_some_iff.mp checked
    cases packed
    simp only [ok_errorIf, Bool.not_not] at fine
    exact .inr ⟨otherBlock, fine ▸ answer⟩

end

section

variable (consistent : f.Consistent) (defined : f.isDeclaration = false)
  (accepted : Accepted mod f fuel tree) (stays : f.EdgesStayLinked)
include consistent defined accepted stays

/-- A block that passed a dominance check has been left on every walk. -/
theorem left_of_dominates {defBlock : BlockId} (different : defBlock ≠ b)
    (answer : tree.dominates fuel defBlock b = some true)
    (walk : Cfg.Walk f.successorBlocks f.entryBlock trail b) :
    ∃ index, (defBlock, index) ∈ trail := by
  have settled := DominatorTree.compute_settled defined accepted.computed
  have dominates := settled.dominates_sound (fun _ _ edge => edge)
    (fun b reached => consistent.ne_zero (linked_of_reached stays defined reached)) answer
  rcases dominates trail walk with same | left
  · exact absurd same different
  · exact left

omit consistent stays in
theorem reachable_of_walk (walk : Cfg.Walk f.successorBlocks f.entryBlock trail b) :
    tree.reachable b = true := by
  have settled := DominatorTree.compute_settled defined accepted.computed
  simpa [DominatorTree.reachable] using settled.listed (fun _ _ edge => edge) ⟨trail, walk⟩

/-- The use of a result in an accepted function: its instruction comes first
in the block, or its block has been left. -/
theorem result_use (walk : Cfg.Walk f.successorBlocks f.entryBlock trail b)
    (found : (f.blockInsts b)[k]? = some i) (used : v ∈ usesOf f i)
    (valid : f.isValidValue v = true) (isResult : (f.value v).kind = .instResult) :
    (∃ j < k, (f.blockInsts b)[j]? = some (f.defInst v)) ∨
      (f.inst (f.defInst v)).block ≠ b ∧
        f.defInst v ∈ f.blockInsts (f.inst (f.defInst v)).block ∧
        ∃ index, ((f.inst (f.defInst v)).block, index) ∈ trail := by
  have linked := linked_of_reached stays defined ⟨trail, walk⟩
  have reachable := reachable_of_walk defined accepted walk
  refine (result_checked consistent accepted linked reachable found used valid isResult).imp_right ?_
  rintro ⟨otherBlock, inBlock, answer⟩
  exact ⟨otherBlock, inBlock,
    left_of_dominates consistent defined accepted stays otherBlock answer walk⟩

theorem param_use (walk : Cfg.Walk f.successorBlocks f.entryBlock trail b)
    (member : i ∈ f.blockInsts b) (used : v ∈ usesOf f i) (valid : f.isValidValue v = true)
    (isParam : (f.value v).kind = .blockParam) :
    payloadIndex (f.value v) = b ∨ ∃ index, (payloadIndex (f.value v), index) ∈ trail := by
  have linked := linked_of_reached stays defined ⟨trail, walk⟩
  have reachable := reachable_of_walk defined accepted walk
  rcases param_checked accepted linked reachable member used valid isParam
    with same | ⟨otherBlock, answer⟩
  · exact .inl same
  · exact .inr (left_of_dominates consistent defined accepted stays otherBlock answer walk)

end

theorem defInst_eq (isResult : (f.value v).kind = .instResult) :
    f.defInst v = payloadIndex (f.value v) := by
  simp [defInst, isResult]

section

variable (consistent : f.Consistent) (defined : f.isDeclaration = false)
  (accepted : Accepted mod f fuel tree) (stays : f.EdgesStayLinked)
include consistent defined accepted stays

/-- The condition is enough: what an instruction reads lies along the walk. -/
theorem use_definedAlong (attached : f.ReadParamsAttached) (guarded : f.InvokeResultsGuarded)
    (walk : Cfg.Walk f.successorBlocks f.entryBlock trail b) (found : (f.blockInsts b)[k]? = some i)
    (used : v ∈ usesOf f i) (computed : f.Computed v) : v ∈ f.DefinedAlong trail b k := by
  have member := mem_of_getElem? found
  obtain ⟨valid, isResult | isParam⟩ := computed
  · have defines : (f.inst (f.defInst v)).result = v := by
      rw [defInst_eq isResult]
      exact consistent.defs v isResult
    rcases result_use consistent defined accepted stays walk found used valid isResult with
      ⟨j, before, atDef⟩ | ⟨-, inBlock, index, left⟩
    · exact .inr (.inl ⟨j, before, f.defInst v, atDef, defines.symm⟩)
    by_cases invokes : (f.inst (f.defInst v)).op.isInvoke = true
    · have normal := guarded b ⟨trail, walk⟩ i member v used valid isResult invokes trail walk
      exact .inr (.inr ⟨_, normal, .inr ⟨f.defInst v, inBlock, defines.symm, by
        simp [producesOnEdge]⟩⟩)
    · exact .inr (.inr ⟨_, left, .inr ⟨f.defInst v, inBlock, defines.symm, by
        simp [producesOnEdge, invokes]⟩⟩)
  · have listed := attached b ⟨trail, walk⟩ i member v used valid isParam
    rcases param_use consistent defined accepted stays walk member used valid isParam with
      same | ⟨index, left⟩
    · exact .inl (same ▸ listed)
    · exact .inr (.inr ⟨_, left, .inl listed⟩)

theorem definedAlong_of_reads (reads : f.ReadsDefined)
    (walk : Cfg.Walk f.successorBlocks f.entryBlock trail b) (found : (f.blockInsts b)[k]? = some i)
    (used : v ∈ usesOf f i) (computed : f.Computed v) :
    v ∈ f.DefinedAlong trail b k ∨ v = (f.inst i).result := by
  have execution := execution_of_walk (fun b => accepted.laidOut) consistent stays defined
    walk (List.getElem?_eq_some_iff.mp found).1
  obtain ⟨operands, edges⟩ := reads b k _ i execution found
  rcases mem_usesOf.1 used with operand | ⟨index, call, edge, arg⟩
  · exact .inl (operands v operand computed)
  · rcases edges index call edge v arg computed with before | ⟨-, own⟩
    · exact .inl before
    · exact .inr own

end

theorem result_inst (consistent : f.Consistent) (valid : f.isValidValue v = true)
    (same : v = (f.inst i).result) :
    (f.value v).kind = .instResult ∧ f.defInst v = i := by
  have nonzero : (f.inst i).result ≠ 0 :=
    same ▸ Nat.pos_iff_ne_zero.mp (Slots.isValid_iff.mp valid).1
  obtain ⟨-, -, isResult, index⟩ := consistent.results i nonzero
  rw [← same] at isResult index
  exact ⟨isResult, (defInst_eq isResult).trans index⟩

theorem readParamsAttached_of_reads (consistent : f.Consistent)
    (defined : f.isDeclaration = false) (accepted : Accepted mod f fuel tree)
    (stays : f.EdgesStayLinked) (reads : f.ReadsDefined) : f.ReadParamsAttached := by
  rintro b ⟨trail, walk⟩ i member v used valid isParam
  obtain ⟨k, found⟩ := getElem?_of_mem member
  have notResult : ∀ {j : InstId}, v ≠ (f.inst j).result := by
    intro j same
    have isResult := (result_inst consistent valid same).1
    rw [isParam] at isResult
    cases isResult
  have listed : ∀ {c : BlockId}, v ∈ f.blockParams c →
      v ∈ f.blockParams (payloadIndex (f.value v)) := by
    intro c inParams
    rw [(consistent.params c v inParams).2.2.2]
    exact inParams
  rcases definedAlong_of_reads consistent defined accepted stays reads walk found used
    ⟨valid, .inr isParam⟩ with (param | ⟨j, -, other, -, same⟩ | ⟨left, -, rest⟩) | own
  · exact listed param
  · exact absurd same notResult
  · rcases rest with param | ⟨other, -, same, -⟩
    · exact listed param
    · exact absurd same notResult
  · exact absurd own notResult

theorem invoke_terminator {op : Opcode} (invokes : op.isInvoke = true) :
    op.isTerminator = true := by
  cases op <;> first | rfl | cases invokes

theorem invoke_edges (invokes : (f.inst i).op.isInvoke = true) :
    (f.successors i).length = 2 := by
  cases op : (f.inst i).op <;> simp [op, Opcode.isInvoke] at invokes <;> simp [successors, op]

theorem invokeResultsGuarded_of_reads (consistent : f.Consistent)
    (defined : f.isDeclaration = false) (accepted : Accepted mod f fuel tree)
    (stays : f.EdgesStayLinked) (reads : f.ReadsDefined) : f.InvokeResultsGuarded := by
  rintro b - i member v used valid isResult invokes trail walk
  obtain ⟨k, found⟩ := getElem?_of_mem member
  have linked := linked_of_reached stays defined ⟨trail, walk⟩
  have terminator := invoke_terminator invokes
  have notParam : ∀ {c : BlockId}, v ∉ f.blockParams c := by
    intro c inParams
    have isParam := (consistent.params c v inParams).2.2.1
    rw [isResult] at isParam
    cases isParam
  -- the invoke ends its block, so it does not stand in front of a position
  have notBefore : ∀ {j : ℕ}, j < k → (f.blockInsts b)[j]? ≠ some (f.defInst v) := by
    intro j before atJ
    have atEnd := (accepted.laidOut linked).position (consistent.instsNodup b) atJ terminator
    have inside := (List.getElem?_eq_some_iff.mp found).1
    omega
  rcases definedAlong_of_reads consistent defined accepted stays reads walk found used
    ⟨valid, .inl isResult⟩ with
    (param | ⟨j, before, other, atOther, same⟩ | ⟨left, inTrail, rest⟩) | own
  · exact absurd param notParam
  · rw [← (result_inst consistent valid same).2] at atOther
    exact absurd atOther (notBefore before)
  · rcases rest with param | ⟨other, inBlock, same, produced⟩
    · exact absurd param notParam
    have isDef : f.defInst v = other := (result_inst consistent valid same).2
    subst isDef
    have owner := (consistent.attached left.1 _ inBlock).2.2
    obtain ⟨leftReached, bounded⟩ := walk.left inTrail
    have leftLinked := linked_of_reached stays defined leftReached
    rw [(accepted.laidOut leftLinked).successorBlocks inBlock terminator, length_map,
      invoke_edges invokes] at bounded
    have notUnwind : left.2 ≠ 1 := by
      intro unwind
      simp [producesOnEdge, invokes, unwind] at produced
    have normal : left = ((f.inst (f.defInst v)).block, 0) := by
      refine Prod.ext owner.symm ?_
      change left.2 = 0
      omega
    exact normal ▸ inTrail
  · -- a terminator cannot pass its own result: the use would not come later
    have isDef : f.defInst v = i := (result_inst consistent valid own).2
    rcases result_use consistent defined accepted stays walk found used valid isResult with
      ⟨j, before, atDef⟩ | ⟨otherBlock, -⟩
    · exact absurd atDef (notBefore before)
    · rw [isDef] at otherBlock
      exact absurd (consistent.attached b i member).2.2 otherBlock

/-- For a function that the verifier accepts and whose edges lead to linked
blocks, every read of every execution finds its value defined iff every read
parameter is still in its block's list and every read of an invoke result lies
behind the normal edge of the invoke. -/
theorem readsDefined_iff (built : f.Built) (accepts : Accepts mod f)
    (stays : f.EdgesStayLinked) :
    f.ReadsDefined ↔ f.ReadParamsAttached ∧ f.InvokeResultsGuarded := by
  have consistent := built.consistent
  cases defined : f.isDeclaration with
  | true =>
    have empty : f.layout = [] := by simpa [isDeclaration] using defined
    have nothing : ∀ b, f.Reached b → f.blockInsts b = [] := by
      have zero : f.blockInsts f.entryBlock = [] := by
        refine eq_nil_iff_forall_not_mem.mpr fun i member => ?_
        have valid := (consistent.attached _ i member).1
        simp [entryBlock, empty, isValidBlock, Slots.isValid] at valid
      rintro b ⟨trail, walk⟩
      refine walk.induct (fun b => f.blockInsts b = []) zero ?_
      intro node next none edge
      simp [successorBlocks, lastInst?, none] at edge
    constructor
    · intro _
      constructor <;> intro b reached i member <;>
        · rw [nothing b reached] at member
          cases member
    · intro _ b k defined i execution
      have impossible : ∀ {b k defined}, f.Execution b k defined → False := by
        intro b k defined execution
        induction execution with
        | entry layout => simp [empty] at layout
        | next _ _ _ ih | edge _ _ _ ih => exact ih
      exact (impossible execution).elim
  | false =>
    obtain ⟨fuel, tree, accepted⟩ := accepted_of_accepts accepts defined
    constructor
    · intro reads
      exact ⟨readParamsAttached_of_reads consistent defined accepted stays reads,
        invokeResultsGuarded_of_reads consistent defined accepted stays reads⟩
    · rintro ⟨attached, guarded⟩ b k reached i execution found
      obtain ⟨-, trail, walk, rfl⟩ := execution.walk (fun b => accepted.laidOut) consistent stays
      have along : ∀ v ∈ usesOf f i, f.Computed v → v ∈ f.DefinedAlong trail b k :=
        fun v used computed => use_definedAlong consistent defined accepted stays attached
          guarded walk found used computed
      constructor
      · intro v operand computed
        exact along v (mem_usesOf.2 (.inl operand)) computed
      · intro index call edge v arg computed
        exact .inl (along v (mem_usesOf.2 (.inr ⟨index, call, edge, arg⟩)) computed)

end Soundness

/-- One callee that returns an `i32`, called by the function below. -/
def catchModule : Module where
  types := { TypeTable.initial with
    sigs := [{}, { retClass := .scalar, retType := types.I32 }] }
  pointerWidth := 64
  functions := [{ name := "callee", sig := 1 }]
  ehLandingPadPayloads := [{ hasCatchAll := true }]

/-- Three blocks: the invoke, its normal successor that returns the result, and
its landing pad that returns the same result. -/
def catchBlocks : Function :=
  (((({ name := "f", sig := 1 : Function }.createBlock []).2.createBlock []).2.createBlock
    []).2.makeBlockCall 2 []).2.makeBlockCall 3 [] |>.2

def catchInsts : Function :=
  ((((catchBlocks.makeInst .invoke types.I32 [] 1 0 0 (packPairAux 1 2)).2.makeInst
    .ret 0 [1]).2.makeInst .ehLandingPad types.PTR []).2.makeInst .ret 0 [1]).2

def catchReadsResult : Function :=
  (((catchInsts.appendInst 1 1).appendInst 2 2).appendInst 3 3).appendInst 3 4

theorem catchReadsResult_built : catchReadsResult.Built := by
  have blocks : catchBlocks.Built := by
    refine .makeBlockCall _ (.makeBlockCall _ (.createBlock _ (.createBlock _ (.createBlock _
      (.new _ _) ?_) ?_) ?_) ?_) ?_ <;> decide
  have insts : catchInsts.Built := by
    refine .makeInst _ _ _ _ _ _ _ (.makeInst _ _ _ _ _ _ _ (.makeInst _ _ _ _ _ _ _
      (.makeInst _ _ _ _ _ _ _ blocks ?_ ?_) ?_ ?_) ?_ ?_) ?_ ?_
    all_goals decide
  refine .appendInst (.appendInst (.appendInst (.appendInst insts ?_ ?_ ?_) ?_ ?_ ?_)
    ?_ ?_ ?_) ?_ ?_ ?_ <;> decide

theorem catchReadsResult_accepts : Accepts catchModule catchReadsResult :=
  ⟨20, [], by decide, rfl⟩

theorem catchReadsResult_staysLinked : catchReadsResult.EdgesStayLinked := by
  have blocks : ∀ b ∈ catchReadsResult.layout,
      ∀ target ∈ catchReadsResult.successorBlocks b, target ∈ catchReadsResult.layout := by decide
  exact blocks

/-- The execution along the unwind edge reads value 1 in the landing pad. -/
theorem catchReadsResult_reads_undefined : ¬ catchReadsResult.ReadsDefined := by
  intro reads
  have atInvoke : catchReadsResult.Execution 1 0 _ := .entry rfl
  have atPad : catchReadsResult.Execution 3 0 _ :=
    atInvoke.edge (i := 1) (show (catchReadsResult.blockInsts 1)[0]? = some 1 by decide)
      (show (catchReadsResult.successors 1)[1]? = some 2 by decide)
  have atReturn : catchReadsResult.Execution 3 1 _ := atPad.next (i := 3) (by decide) (by decide)
  have defined := (reads 3 1 _ 4 atReturn (by decide)).1 1 (by decide) ⟨by decide, .inl (by decide)⟩
  simp only [definedOnEdge, Set.mem_ofPred_eq] at defined
  revert defined
  decide

theorem catchReadsResult_readsDefined_iff :
    catchReadsResult.ReadsDefined ↔
      catchReadsResult.ReadParamsAttached ∧ catchReadsResult.InvokeResultsGuarded :=
  readsDefined_iff catchReadsResult_built catchReadsResult_accepts catchReadsResult_staysLinked

theorem accepted_reads_undefined :
    catchReadsResult.Built ∧ Accepts catchModule catchReadsResult ∧
      ¬ catchReadsResult.ReadsDefined :=
  ⟨catchReadsResult_built, catchReadsResult_accepts, catchReadsResult_reads_undefined⟩

end Function

end Aburi.Air
