import Aburi.Air.Points

/-!
# Results keep their equations

An operation with a fixed meaning leaves an equation between its result and
its operands.  The equation stays true at every point that the operation
reaches on all paths, because no such point can redefine an operand before the
operation itself runs again.
-/

namespace Aburi.Air

open Aburi.Lib Nat List BitVec

variable {i : InstId} {v : ValueId} {b : BlockId}

namespace Function

/-- A value that can be read at a point. -/
def Readable (f : Function) (v : ValueId) (point : Point) : Prop :=
  f.isValidValue v = true ∧ f.AvailableAt v point

/-- What the passes need of a function: consistent tables, blocks that end in
their terminator, and values that are available where they are read.  The
arguments of an edge may be the result that the edge produces. -/
structure SingleAssignment (f : Function) : Prop where
  consistent : f.Consistent
  defined : f.isDeclaration = false
  laidOut : ∀ b ∈ f.layout, f.LaidOut b
  operands : ∀ {point i}, f.PointReached point → f.instAt point i →
    ∀ v ∈ f.operands i, f.Readable v point
  arguments : ∀ {point i index call}, f.PointReached point → f.instAt point i →
    (f.successors i)[index]? = some call → (f.blockCall call).target ∈ f.layout →
    ∀ v ∈ f.blockCallArgs call, f.Readable v point ∨
      v = (f.inst i).result ∧ v ≠ 0 ∧ f.producesOnEdge i index = true

variable {f : Function}

section

variable (consistent : f.Consistent)
include consistent

theorem Consistent.point_unique {first second : Point} (atFirst : f.instAt first i)
    (atSecond : f.instAt second i) :
    first = second := by
  have owner := (consistent.attached _ i (mem_of_getElem? atFirst)).2.2
  have otherOwner := (consistent.attached _ i (mem_of_getElem? atSecond)).2.2
  have sameBlock : first.1 = second.1 := owner.symm.trans otherOwner
  rw [instAt, ← sameBlock] at atSecond
  exact Prod.ext sameBlock ((getElem?_inj (List.getElem?_eq_some_iff.mp atFirst).1
    (consistent.instsNodup _)).mp (atFirst.trans atSecond.symm))

theorem Consistent.isConstant_result (produces : (f.inst i).result ≠ 0) :
    f.isConstant (f.inst i).result = false := by
  simp [isConstant, (consistent.results i produces).2.2.1]

theorem Consistent.defInst_result (produces : (f.inst i).result ≠ 0) :
    f.defInst (f.inst i).result = i := by
  obtain ⟨-, -, isResult, index⟩ := consistent.results i produces
  simpa [defInst, isResult] using index

theorem Consistent.result_inj {j : InstId} (produces : (f.inst j).result ≠ 0)
    (same : (f.inst j).result = (f.inst i).result) :
    j = i := by
  rw [← consistent.defInst_result produces, same]
  exact consistent.defInst_result (same ▸ produces)

end

variable {point : Point}

theorem AvailableAt.later {next : Point} (available : f.AvailableAt v point)
    (executed : f.Executed point next) :
    f.AvailableAt v next := by
  rw [AvailableAt] at available ⊢
  cases kind : (f.value v).kind with
  | instResult =>
    simp only [kind] at available ⊢
    obtain ⟨defPoint, atDef, before⟩ := available
    exact ⟨defPoint, atDef, before.trans executed⟩
  | blockParam =>
    simp only [kind] at available ⊢
    rcases available with here | before
    · exact .inr (here ▸ executed)
    · exact .inr (before.trans executed)
  | _ => trivial

theorem Readable.later {next : Point} (readable : f.Readable v point)
    (executed : f.Executed point next) : f.Readable v next :=
  ⟨readable.1, readable.2.later executed⟩

theorem Readable.executed (consistent : f.Consistent) {defPoint : Point}
    (readable : f.Readable (f.inst i).result point) (produces : (f.inst i).result ≠ 0)
    (found : f.instAt defPoint i) : f.Executed defPoint point := by
  have available := readable.2
  rw [AvailableAt, (consistent.results i produces).2.2.1] at available
  obtain ⟨other, atDef, executed⟩ := available
  rw [consistent.defInst_result produces] at atDef
  rwa [consistent.point_unique atDef found] at executed

theorem Readable.ne_result (consistent : f.Consistent) {usePoint : Point}
    (reached : f.PointReached point) (found : f.instAt point i)
    (later : usePoint = point ∨ f.Executed usePoint point) (readable : f.Readable v usePoint) :
    v ≠ (f.inst i).result := by
  rintro rfl
  have produces : (f.inst i).result ≠ 0 :=
    Nat.pos_iff_ne_zero.mp (Slots.isValid_iff.mp readable.1).1
  have executed := readable.executed consistent produces found
  rcases later with rfl | after
  · exact executed.irrefl reached
  · exact executed.asymm reached after

/-- Nor were the parameters of a block before the block was entered. -/
theorem Readable.notMem_params (consistent : f.Consistent) {usePoint : Point}
    (reached : f.PointReached (b, 0)) (before : f.Executed usePoint (b, 0))
    (readable : f.Readable v usePoint) :
    v ∉ f.blockParams b := by
  intro member
  obtain ⟨-, -, isParam, owner⟩ := consistent.params b v member
  have available := readable.2
  rw [AvailableAt, isParam, owner] at available
  rcases available with here | after
  · exact (here ▸ before).irrefl reached
  · exact after.asymm reached before

end Function

variable {env : Env} {result : Val}

section Reading

variable {World : Type} {interp : Interp World} {mod : Module} {f : Function}

theorem assign_of_notMem {names : List ValueId} {vals : List Val} (absent : v ∉ names) :
    assign env names vals v = env v := by
  have missing : (names.zip vals).lookup v = none := by
    rw [lookup_eq_none_iff]
    intro entry member
    have listed : entry.1 ∈ names := (of_mem_zip member).1
    rw [bne_iff_ne]
    intro same
    exact absent (same ▸ listed)
  simp [assign, missing]

theorem assign_singleton (env : Env) (v : ValueId) (x : Val) :
    assign env [v] [x] v = x := by
  simp [assign]

theorem edgeEnv_of_ne {index : ℕ} (other : v ≠ (f.inst i).result) :
    edgeEnv mod f i index result env v = env v := by
  rw [edgeEnv]
  split
  · exact assign_of_notMem (by simpa using other)
  · rfl

theorem readValue_congr {env' : Env} (same : env' v = env v) :
    readValue interp mod f env' v = readValue interp mod f env v := by
  simp [readValue, same]

theorem readAll_congr {env' : Env} {vs : List ValueId}
    (same : ∀ v ∈ vs, readValue interp mod f env' v = readValue interp mod f env v) :
    readAll interp mod f env' vs = readAll interp mod f env vs :=
  map_congr_left same

theorem clampBits_idem (bits : ℕ) (v : Val) :
    clampBits bits (clampBits bits v) = clampBits bits v := by
  apply eq_of_toNat_eq
  simp only [clampBits, toNat_setWidth]
  have bounded := v.isLt
  generalize v.toNat = n at bounded
  rcases Nat.lt_or_ge bits 128 with small | large
  · have within : 2 ^ bits ≤ 2 ^ 128 := Nat.pow_le_pow_right (by omega) small.le
    have low : n % 2 ^ bits < 2 ^ bits := mod_lt _ (Nat.two_pow_pos bits)
    rw [mod_eq_of_lt (low.trans_le within), mod_mod, mod_eq_of_lt (low.trans_le within)]
  · have within : 2 ^ 128 ≤ 2 ^ bits := Nat.pow_le_pow_right (by omega) large
    have fits : n < 2 ^ bits := bounded.trans_le within
    rw [mod_eq_of_lt fits, mod_eq_of_lt bounded, mod_eq_of_lt fits,
      mod_eq_of_lt bounded]

theorem clamp_idem (type : TypeId) (v : Val) :
    clamp mod type (clamp mod type v) = clamp mod type v :=
  clampBits_idem _ v

theorem clamp_readValue (env : Env) (v : ValueId) :
    clamp mod (f.valueType v) (readValue interp mod f env v) = readValue interp mod f env v :=
  clamp_idem _ _

end Reading

section Equations

variable {World : Type} (interp : Interp World) (mod : Module) (f : Function)

/-- The result of an operation with a fixed meaning, in terms of its operands. -/
def Equation (env : Env) (i : InstId) : Prop :=
  (f.inst i).result ≠ 0 →
    ∀ v, evalPure interp mod (f.shape i) (readAll interp mod f env (f.operands i)) = some v →
      env (f.inst i).result = clamp mod (f.inst i).type v

/-- The equations of all operations that were executed on every path. -/
def EquationsHold (env : Env) (point : Point) : Prop :=
  ∀ defPoint i, f.instAt defPoint i → (f.inst i).op.isTerminator = false →
    f.Executed defPoint point → Equation interp mod f env i

end Equations

open FunctionVerifier in
theorem Function.Built.singleAssignment {mod : Module} {f : Function} (built : f.Built)
    {fuel : ℕ} {tree : DominatorTree} (accepted : Accepted mod f fuel tree)
    (defined : f.isDeclaration = false) : f.SingleAssignment where
  consistent := built.consistent
  defined := defined
  laidOut b linked := accepted.laidOut linked
  operands := by
    intro point i reached found v used
    have linked := reached.linked defined
    have valid := (accepted.checkedInst linked (mem_of_getElem? found)).operands v used
    exact ⟨valid.1, use_available built.consistent defined accepted reached found
      (mem_append_left _ used) valid.1⟩
  arguments := by
    intro point i index call reached found edge _ v used
    have linked := reached.linked defined
    have isEdge := mem_of_getElem? edge
    have checked := (accepted.checkedInst linked (mem_of_getElem? found)).edge isEdge
    have inUses : v ∈ usesOf f i :=
      mem_append_right _ (List.mem_flatMap.mpr ⟨call, isEdge, used⟩)
    exact .inl ⟨checked.args v used, use_available built.consistent defined accepted reached
      found inUses (checked.args v used)⟩

section Transitions

variable {World : Type} (interp : Interp World) (mod : Module) (f : Function)

/-- The ways to take a step. -/
inductive Transition : State World → State World → Event → Prop
  | stop {b k env world i} :
      f.instAt (b, k) i → (f.inst i).op.isTerminator = false →
      execInst interp mod f i (readAll interp mod f env (f.operands i)) world = none →
      Transition (.running b k env world) (.returned world)
        (i, readAll interp mod f env (f.operands i))
  | exec {b k env world i result world'} :
      f.instAt (b, k) i → (f.inst i).op.isTerminator = false →
      execInst interp mod f i (readAll interp mod f env (f.operands i)) world =
        some (result, world') →
      Transition (.running b k env world)
        (.running b (k + 1) (assign env [(f.inst i).result] [result]) world')
        (i, readAll interp mod f env (f.operands i))
  | finish {b k env world i} :
      f.instAt (b, k) i → (f.inst i).op.isTerminator = true →
      leaveInst interp f i (readAll interp mod f env (f.operands i)) world = none →
      Transition (.running b k env world) (.returned world)
        (i, readAll interp mod f env (f.operands i))
  | leave {b k env world i index result world' call} :
      f.instAt (b, k) i → (f.inst i).op.isTerminator = true →
      leaveInst interp f i (readAll interp mod f env (f.operands i)) world =
        some (index, result, world') →
      (f.successors i)[index]? = some call → (f.blockCall call).target ∈ f.layout →
      Transition (.running b k env world)
        (.running (f.blockCall call).target 0
          (assign (edgeEnv mod f i index result env) (f.blockParams (f.blockCall call).target)
            (readAll interp mod f (edgeEnv mod f i index result env)
              (f.blockCallArgs call))) world')
        (i, readAll interp mod f env (f.operands i))

variable {interp mod f}

variable {state : State World}

theorem stepState_iff {next : State World} {event : Event} :
    stepState interp mod f state = some (next, event) ↔
      Transition interp mod f state next event := by
  constructor
  · intro stepped
    cases state with
    | returned world => cases stepped
    | running b k env world =>
      simp only [stepState] at stepped
      split at stepped
      · cases stepped
      rename_i i found
      split at stepped
      case isTrue terminator =>
        split at stepped
        · cases stepped
          exact .finish found terminator ‹_›
        rename_i index result world' left
        obtain ⟨state, entered, packed⟩ := Option.map_eq_some_iff.mp stepped
        cases packed
        simp only [enter] at entered
        split at entered
        · cases entered
        rename_i call edge
        split at entered
        · cases entered
          exact .leave found terminator left edge ‹_›
        · cases entered
      case isFalse inside =>
        have inside := Bool.eq_false_iff.mpr inside
        split at stepped
        · cases stepped
          exact .stop found inside ‹_›
        · cases stepped
          exact .exec found inside ‹_›
  · intro transition
    cases transition with
    | stop found inside halted =>
      rw [Function.instAt] at found
      simp [stepState, found, inside, halted]
    | exec found inside executed =>
      rw [Function.instAt] at found
      simp [stepState, found, inside, executed]
    | finish found terminator left =>
      rw [Function.instAt] at found
      simp [stepState, found, terminator, left]
    | leave found terminator left edge linked =>
      rw [Function.instAt] at found
      simp [stepState, found, terminator, left, enter, edge, linked]

theorem stepState_stuck {k : ℕ} {world world' : World} {index : ℕ} (found : f.instAt (b, k) i)
    (terminator : (f.inst i).op.isTerminator = true)
    (left : leaveInst interp f i (readAll interp mod f env (f.operands i)) world =
      some (index, result, world')) (missing : ∀ call, (f.successors i)[index]? = some call →
      (f.blockCall call).target ∉ f.layout) :
    stepState interp mod f (.running b k env world) = none := by
  rw [Function.instAt] at found
  simp only [stepState, found, terminator, if_true, left, enter]
  cases edge : (f.successors i)[index]? with
  | none => rfl
  | some call => simp [missing call edge]

theorem machine_step {kept : InstId → Bool} {next : State World} {event : Event}
    (stepped : stepState interp mod f state = some (next, event)) :
    (machine interp mod f kept).step state = some (next, if kept event.1 then [event] else []) := by
  simp [machine, stepped]

theorem machine_stuck {kept : InstId → Bool} (stuck : stepState interp mod f state = none) :
    (machine interp mod f kept).step state = none := by
  simp [machine, stuck]

end Transitions

section Keeping

variable {World : Type} {interp : Interp World} {mod : Module} {f : Function}

theorem Equation.congr {env' : Env} (holds : Equation interp mod f env i)
    (reads : ∀ v ∈ f.operands i, env' v = env v)
    (result : (f.inst i).result ≠ 0 → env' (f.inst i).result = env (f.inst i).result) :
    Equation interp mod f env' i := by
  intro produces v computed
  rw [result produces]
  refine holds produces v ?_
  rwa [readAll_congr fun v member => readValue_congr (reads v member)] at computed

theorem EquationsHold.entry (env : Env) :
    EquationsHold interp mod f env f.entryPoint := by
  intro defPoint i _ _ executed
  obtain ⟨index, member⟩ := executed [] .start
  cases member

variable (single : f.SingleAssignment)

include single

theorem EquationsHold.exec {k : ℕ} {world world' : World}
    (holds : EquationsHold interp mod f env (b, k)) (reached : f.PointReached (b, k))
    (found : f.instAt (b, k) i) (inside : (f.inst i).op.isTerminator = false)
    (executed : execInst interp mod f i (readAll interp mod f env (f.operands i)) world =
      some (result, world')) :
    EquationsHold interp mod f (assign env [(f.inst i).result] [result]) (b, k + 1) := by
  intro defPoint j atDef inner before
  have edge : (b, k + 1) ∈ f.pointSuccs (b, k) := by
    rw [Function.pointSuccs_of_inst found inside]
    exact mem_singleton_self _
  have keeps : ∀ {v : ValueId}, v ≠ (f.inst i).result →
      assign env [(f.inst i).result] [result] v = env v := fun different =>
    assign_of_notMem (by simpa using different)
  rcases before.of_mem edge with here | earlier
  · -- the new equation: an operand is not the result
    subst here
    obtain rfl : j = i := Option.some.inj (atDef.symm.trans found)
    intro produces v computed
    have unchanged : ∀ v ∈ f.operands j,
        assign env [(f.inst j).result] [result] v = env v := fun v used =>
      keeps ((single.operands reached found v used).ne_result single.consistent reached
        found (.inl rfl))
    rw [readAll_congr fun v member => readValue_congr (unchanged v member)] at computed
    rw [execInst, computed] at executed
    cases executed
    rw [assign_singleton]
  · refine (holds defPoint j atDef inner earlier).congr ?_ ?_
    · intro v used
      exact keeps ((single.operands (earlier.reached reached) atDef v used).ne_result
        single.consistent reached found (.inr earlier))
    · intro produces
      refine keeps fun same => ?_
      obtain rfl := single.consistent.result_inj produces same
      obtain rfl := single.consistent.point_unique atDef found
      exact earlier.irrefl reached

/-- Along an edge no operand of an earlier equation is redefined. -/
theorem EquationsHold.enter {k : ℕ} {index : ℕ} {call : BlockCallId} {vals : List Val}
    (holds : EquationsHold interp mod f env (b, k)) (reached : f.PointReached (b, k))
    (found : f.instAt (b, k) i) (edge : (f.successors i)[index]? = some call)
    (linked : (f.blockCall call).target ∈ f.layout) :
    EquationsHold interp mod f
      (assign (edgeEnv mod f i index result env) (f.blockParams (f.blockCall call).target) vals)
      ((f.blockCall call).target, 0) := by
  intro defPoint j atDef inner before
  have taken := Function.mem_pointSuccs_of_edge found edge linked
  have reachedTarget := reached.step taken
  have reachedDef := before.reached reachedTarget
  have terminator := Function.successors_terminator (mem_of_getElem? edge)
  have earlier : f.Executed defPoint (b, k) := by
    rcases before.of_mem taken with here | earlier
    · subst here
      obtain rfl : j = i := Option.some.inj (atDef.symm.trans found)
      rw [inner] at terminator
      cases terminator
    · exact earlier
  have keeps : ∀ {v : ValueId}, v ≠ (f.inst i).result →
      v ∉ f.blockParams (f.blockCall call).target →
      assign (edgeEnv mod f i index result env)
        (f.blockParams (f.blockCall call).target) vals v = env v := by
    intro v different notParam
    rw [assign_of_notMem notParam, edgeEnv_of_ne different]
  refine (holds defPoint j atDef inner earlier).congr ?_ ?_
  · intro v used
    have readable := single.operands reachedDef atDef v used
    exact keeps (readable.ne_result single.consistent reached found (.inr earlier))
      (readable.notMem_params single.consistent reachedTarget before)
  · intro produces
    refine keeps ?_ ?_
    · intro same
      obtain rfl := single.consistent.result_inj produces same
      obtain rfl := single.consistent.point_unique atDef found
      exact earlier.irrefl reached
    · intro isParam
      have kind := (single.consistent.params _ _ isParam).2.2.1
      rw [(single.consistent.results j produces).2.2.1] at kind
      cases kind

/-- Steps stay on reached points and keep the equations. -/
theorem Transition.equations {b' : BlockId} {k k' : ℕ} {env' : Env} {world world' : World}
    {event : Event} (transition : Transition interp mod f (.running b k env world)
      (.running b' k' env' world') event) (reached : f.PointReached (b, k))
    (holds : EquationsHold interp mod f env (b, k)) :
    f.PointReached (b', k') ∧ EquationsHold interp mod f env' (b', k') := by
  cases transition with
  | exec found inside executed =>
    refine ⟨reached.step ?_, holds.exec single reached found inside executed⟩
    rw [Function.pointSuccs_of_inst found inside]
    exact mem_singleton_self _
  | leave found terminator left edge linked =>
    exact ⟨reached.step (Function.mem_pointSuccs_of_edge found edge linked),
      holds.enter single reached found edge linked⟩

end Keeping

end Aburi.Air
