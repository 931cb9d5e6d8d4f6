import Aburi.Air.Function
import Mathlib.Data.List.Nodup
import Mathlib.Order.Basic

/-!
# Functions built through their interface

The mutators of a function, under the conditions that they assert, keep the
owner links consistent: an instruction is in the list of the block it names,
a result names its instruction and a parameter its block.
-/

namespace Aburi.Air

open Aburi.Lib List Nat

/-- The links between the tables of a function. -/
structure Function.Consistent (f : Function) : Prop where
  layoutNodup : f.layout.Nodup
  layoutValid : ∀ b ∈ f.layout, f.isValidBlock b = true
  blocksBound : 0 < f.blocks.size ∧ f.blocks.size ≤ 2 ^ 32
  instsBound : 0 < f.insts.size ∧ f.insts.size ≤ 2 ^ 32
  valuesPos : 0 < f.values.size
  attached : ∀ b, ∀ i ∈ f.blockInsts b,
    f.isValidBlock b = true ∧ f.isValidInst i = true ∧ (f.inst i).block = b
  linked : ∀ i, (f.inst i).block ≠ 0 → i ∈ f.blockInsts (f.inst i).block
  instsNodup : ∀ b, (f.blockInsts b).Nodup
  results : ∀ i, (f.inst i).result ≠ 0 →
    f.isValidInst i = true ∧ f.isValidValue (f.inst i).result = true ∧
      (f.value (f.inst i).result).kind = .instResult ∧
      Function.payloadIndex (f.value (f.inst i).result) = i
  defs : ∀ v, (f.value v).kind = .instResult →
    (f.inst (Function.payloadIndex (f.value v))).result = v
  valuesValid : ∀ v, (f.value v).kind = .instResult → f.isValidValue v = true
  params : ∀ b, ∀ v ∈ f.blockParams b,
    f.isValidBlock b = true ∧ f.isValidValue v = true ∧
      (f.value v).kind = .blockParam ∧ Function.payloadIndex (f.value v) = b

/-- What the mutators of a function produce from an empty one.  The premises
are what the mutators assert, and that ids fit their 32-bit type. -/
inductive Function.Built : Function → Prop
  | new (name : String) (sig : SigId) : Built { name, sig }
  | createBlock {f : Function} (types : List TypeId) : Built f →
      f.blocks.size < 2 ^ 32 → Built (f.createBlock types).2
  | appendBlockParam {f : Function} {id : BlockId} (type : TypeId) : Built f →
      f.isValidBlock id = true → Built (f.appendBlockParam id type).2
  | removeBlockParam {f : Function} {id : BlockId} {index : ℕ} : Built f →
      f.isValidBlock id = true → index < (f.blockParams id).length →
      Built (f.removeBlockParam id index)
  | setBlockParams {f : Function} {id : BlockId} (types : List TypeId) : Built f →
      f.isValidBlock id = true → Built (f.setBlockParams id types)
  | removeBlock {f : Function} {id : BlockId} : Built f →
      id ∈ f.layout → id ≠ f.entryBlock → Built (f.removeBlock id)
  | internConstant {f : Function} {kind : ValueKind} (type : TypeId)
      (payload payload2 : Word) : Built f → kind ≠ .instResult →
      kind ≠ .blockParam → Built (f.internConstant kind type payload payload2).2
  | retypeValue {f : Function} {id : ValueId} (type : TypeId) : Built f →
      f.isValidValue id = true →
      (f.value id).kind = .blockParam ∨ (f.value id).kind = .instResult →
      Built (f.retypeValue id type)
  | makeInst {f : Function} (op : Opcode) (type : TypeId) (operands : List ValueId)
      (aux : Word) (loc : SrcLoc) (flags : ℕ) (aux2 : Word) : Built f →
      (∀ count, op.operandCount = some count → operands.length = count) →
      f.insts.size < 2 ^ 32 →
      Built (f.makeInst op type operands aux loc flags aux2).2
  | appendInst {f : Function} {block : BlockId} {id : InstId} : Built f →
      f.isValidBlock block = true → f.isValidInst id = true →
      (f.inst id).block = 0 → Built (f.appendInst block id)
  | insertBefore {f : Function} {position id : InstId} : Built f →
      f.isValidInst position = true → f.isValidInst id = true →
      (f.inst position).block ≠ 0 → (f.inst id).block = 0 →
      Built (f.insertBefore position id)
  | removeInst {f : Function} {id : InstId} : Built f →
      f.isValidInst id = true → (f.inst id).block ≠ 0 → Built (f.removeInst id)
  | setOperand {f : Function} {id : InstId} {index : ℕ} (v : ValueId) : Built f →
      f.isValidInst id = true → index < (f.operands id).length →
      Built (f.setOperand id index v)
  | setInstAux {f : Function} {id : InstId} (aux : Word) : Built f →
      f.isValidInst id = true → Built (f.setInstAux id aux)
  | makeBlockCall {f : Function} {target : BlockId} (args : List ValueId) :
      Built f → f.isValidBlock target = true → Built (f.makeBlockCall target args).2
  | setBlockCallArg {f : Function} {id : BlockCallId} {index : ℕ} (v : ValueId) :
      Built f → f.isValidBlockCall id = true → index < (f.blockCallArgs id).length →
      Built (f.setBlockCallArg id index v)
  | appendBlockCallArg {f : Function} {id : BlockCallId} (v : ValueId) : Built f →
      f.isValidBlockCall id = true → Built (f.appendBlockCallArg id v)
  | removeBlockCallArg {f : Function} {id : BlockCallId} {index : ℕ} : Built f →
      f.isValidBlockCall id = true → index < (f.blockCallArgs id).length →
      Built (f.removeBlockCallArg id index)
  | setBlockCallArgs {f : Function} {id : BlockCallId} (args : List ValueId) :
      Built f → f.isValidBlockCall id = true → Built (f.setBlockCallArgs id args)
  | setBlockCallTarget {f : Function} {id : BlockCallId} {target : BlockId} :
      Built f → f.isValidBlockCall id = true → f.isValidBlock target = true →
      Built (f.setBlockCallTarget id target)
  | makeJumpTable {f : Function} (cases : List SwitchCase) : Built f →
      Built (f.makeJumpTable cases).2
  | makeBlockCallList {f : Function} (calls : List BlockCallId) : Built f →
      Built (f.makeBlockCallList calls).2
  | replaceAllUses {f : Function} {oldValue newValue : ValueId} : Built f →
      f.isValidValue oldValue = true → f.isValidValue newValue = true →
      Built (f.replaceAllUses oldValue newValue)

namespace Function

variable {f : Function}

theorem payloadIndex_ofNat {kind : ValueKind} {type : TypeId} {payload2 : Word}
    {index : ℕ} (bounded : index < 2 ^ 32) :
    payloadIndex ⟨kind, type, BitVec.ofNat 64 index, payload2⟩ = index := by
  simp only [payloadIndex, BitVec.toNat_ofNat]
  omega

namespace Consistent

theorem new (name : String) (sig : SigId) : Consistent { name, sig } := by
  constructor <;> simp [blockInsts, blockParams, block, inst, value, Slots.initial]

/-- Operands, edges and types play no role in the links. -/
theorem congr {g : Function} (consistent : f.Consistent)
    (layout : g.layout = f.layout) (blocks : g.blocks = f.blocks)
    (instSize : g.insts.size = f.insts.size)
    (owner : ∀ i, (g.inst i).block = (f.inst i).block)
    (result : ∀ i, (g.inst i).result = (f.inst i).result)
    (valueSize : g.values.size = f.values.size)
    (kind : ∀ v, (g.value v).kind = (f.value v).kind)
    (payload : ∀ v, (g.value v).payload = (f.value v).payload) :
    g.Consistent := by
  have index : ∀ v, payloadIndex (g.value v) = payloadIndex (f.value v) := by
    intro v
    simp only [payloadIndex, payload]
  have blockEq : ∀ b, g.block b = f.block b := fun b => by simp only [block, blocks]
  have validBlock : ∀ b, g.isValidBlock b = f.isValidBlock b := fun b => by
    simp only [isValidBlock, blocks]
  have validInst : ∀ i, g.isValidInst i = f.isValidInst i := fun i => by
    simp only [isValidInst, Slots.isValid, instSize]
  have validValue : ∀ v, g.isValidValue v = f.isValidValue v := fun v => by
    simp only [isValidValue, Slots.isValid, valueSize]
  obtain ⟨h1, h2, h3, h4, h5, h6, h7, h8, h9, h10, h11, h12⟩ := consistent
  constructor <;>
    simp only [layout, blocks, instSize, valueSize, blockInsts, blockParams, blockEq,
      validBlock, validInst, validValue, owner, result, kind, index] <;> assumption

section

variable (consistent : f.Consistent) {kind : ValueKind} (notResult : kind ≠ .instResult)
  (type : TypeId) (payload payload2 : Word)
include consistent notResult type payload payload2

theorem newValue :
    (f.newValue kind type payload payload2).2.Consistent := by
  have old : ∀ v, f.isValidValue v = true →
      (f.newValue kind type payload payload2).2.value v = f.value v ∧
        (f.newValue kind type payload payload2).2.isValidValue v = true := by
    intro v valid
    obtain ⟨positive, bounded⟩ := Slots.isValid_iff.mp valid
    refine ⟨Slots.get_push_of_valid _ _ bounded, Slots.isValid_iff.mpr ⟨positive, ?_⟩⟩
    exact lt_succ_of_lt bounded
  have origin : ∀ v,
      ((f.newValue kind type payload payload2).2.value v).kind = .instResult →
        (f.newValue kind type payload payload2).2.value v = f.value v := by
    intro v isResult
    by_cases fresh : v = f.values.size
    · subst fresh
      simp only [Function.newValue, value, Slots.get_push_self] at isResult
      exact absurd isResult notResult
    · exact Slots.get_push_ne _ _ fresh
  constructor
  · exact consistent.layoutNodup
  · exact consistent.layoutValid
  · exact consistent.blocksBound
  · exact consistent.instsBound
  · exact succ_pos _
  · exact consistent.attached
  · exact consistent.linked
  · exact consistent.instsNodup
  · intro i produces
    obtain ⟨instValid, valueValid, isResult, index⟩ := consistent.results i produces
    obtain ⟨same, stillValid⟩ := old _ valueValid
    exact ⟨instValid, stillValid, same ▸ isResult, same ▸ index⟩
  · intro v isResult
    have same := origin v isResult
    rw [same] at isResult ⊢
    exact consistent.defs v isResult
  · intro v isResult
    have same := origin v isResult
    rw [same] at isResult
    exact (old v (consistent.valuesValid v isResult)).2
  · intro b v member
    obtain ⟨blockValid, valueValid, isParam, index⟩ := consistent.params b v member
    obtain ⟨same, stillValid⟩ := old v valueValid
    exact ⟨blockValid, stillValid, same ▸ isParam, same ▸ index⟩

theorem internConstant :
    (f.internConstant kind type payload payload2).2.Consistent := by
  rw [Function.internConstant]
  split
  · exact consistent
  · exact consistent.newValue notResult type payload payload2

end

theorem retypeValue (consistent : f.Consistent) (id : ValueId) (type : TypeId) :
    (f.retypeValue id type).Consistent := by
  have kept : ∀ v, ((f.values.set id { f.value id with type }).get v).kind = (f.value v).kind ∧
      ((f.values.set id { f.value id with type }).get v).payload = (f.value v).payload := by
    intro v
    by_cases same : v = id
    · subst same
      simp
    · simp [Slots.get_set_ne _ _ same, value]
  rw [Function.retypeValue]
  split
  · refine consistent.congr rfl rfl rfl ?_ ?_ rfl (fun v => (kept v).1) fun v => (kept v).2
    all_goals
      intro i
      by_cases same : i = payloadIndex (f.value id)
      · subst same
        simp [inst]
      · simp [inst, Slots.get_set_ne _ _ same]
  · exact consistent.congr rfl rfl rfl (fun _ => rfl) (fun _ => rfl) rfl
      (fun v => (kept v).1) fun v => (kept v).2

/-- The values that can stand in the parameter list of a block. -/
def ParamsOf (f : Function) (id : BlockId) (params : List ValueId) : Prop :=
  ∀ v ∈ params, f.isValidValue v = true ∧ (f.value v).kind = .blockParam ∧
    payloadIndex (f.value v) = id

variable {id : BlockId}

section

variable (consistent : f.Consistent)
include consistent

theorem newParams (bounded : id < 2 ^ 32) (position : ℕ) (types : List TypeId) :
    (f.newParams id position types).2.Consistent ∧
      (f.newParams id position types).2.layout = f.layout ∧
      (f.newParams id position types).2.blocks = f.blocks ∧
      f.values.size ≤ (f.newParams id position types).2.values.size ∧
      (∀ v, v < f.values.size → (f.newParams id position types).2.value v = f.value v) ∧
      ParamsOf (f.newParams id position types).2 id (f.newParams id position types).1 := by
  induction types generalizing f position with
  | nil =>
    exact ⟨consistent, rfl, rfl, Nat.le_refl _, fun _ _ => rfl, fun v member => nomatch member⟩
  | cons type rest ih =>
    let created := f.newValue .blockParam type (BitVec.ofNat 64 id)
      (BitVec.ofNat 64 position)
    have next : created.2.Consistent :=
      consistent.newValue (by simp) type (BitVec.ofNat 64 id) (BitVec.ofNat 64 position)
    obtain ⟨consistent', layout, blocks, grows, old, params⟩ := ih next (position + 1)
    have larger : f.values.size < (created.2.newParams id (position + 1) rest).2.values.size :=
      lt_of_succ_le grows
    refine ⟨consistent', layout, blocks, Nat.le_of_lt larger, ?_, ?_⟩
    · intro v valid
      exact (old v (lt_succ_of_lt valid)).trans (Slots.get_push_of_valid _ _ valid)
    · intro v member
      rcases mem_cons.mp member with first | later
      · subst first
        have data : (created.2.newParams id (position + 1) rest).2.value f.values.size =
            ⟨.blockParam, type, BitVec.ofNat 64 id, BitVec.ofNat 64 position⟩ :=
          (old _ (lt_succ_self _)).trans (Slots.get_push_self _ _)
        refine ⟨Slots.isValid_iff.mpr ⟨consistent.valuesPos, larger⟩, ?_⟩
        change ((created.2.newParams id (position + 1) rest).2.value _).kind = _ ∧
          payloadIndex ((created.2.newParams id (position + 1) rest).2.value _) = _
        rw [show (f.newValue .blockParam type (BitVec.ofNat 64 id)
          (BitVec.ofNat 64 position)).1 = f.values.size from rfl, data]
        exact ⟨rfl, payloadIndex_ofNat bounded⟩
      · exact params v later

theorem setParams (valid : f.isValidBlock id = true) {params : List ValueId}
    (allowed : ParamsOf f id params) :
    Consistent { f with blocks := f.blocks.set id { f.block id with params } } := by
  let g : Function := { f with blocks := f.blocks.set id { f.block id with params } }
  have insts : ∀ b, g.blockInsts b = f.blockInsts b := by
    intro b
    by_cases same : b = id
    · subst same
      simp [g, blockInsts, block]
    · simp [g, blockInsts, block, Slots.get_set_ne _ _ same]
  obtain ⟨h1, h2, h3, h4, h5, h6, h7, h8, h9, h10, h11, h12⟩ := consistent
  refine ⟨h1, h2, h3, h4, h5, ?_, ?_, ?_, h9, h10, h11, ?_⟩
  · intro b i member
    exact h6 b i (insts b ▸ member)
  · intro i owned
    exact (insts _).symm ▸ h7 i owned
  · intro b
    exact (insts b).symm ▸ h8 b
  · intro b v member
    by_cases same : b = id
    · subst same
      have inParams : v ∈ params := by
        simpa [blockParams, block] using member
      exact ⟨valid, allowed v inParams⟩
    · have before : v ∈ f.blockParams b := by
        simpa [blockParams, block, Slots.get_set_ne _ _ same] using member
      exact h12 b v before

theorem index_lt (valid : f.isValidBlock id = true) : id < 2 ^ 32 :=
  Nat.lt_of_lt_of_le (Slots.isValid_iff.mp valid).2 consistent.blocksBound.2

theorem setBlockParams (valid : f.isValidBlock id = true) (types : List TypeId) :
    (f.setBlockParams id types).Consistent := by
  obtain ⟨created, layout, blocks, -, -, params⟩ :=
    consistent.newParams (consistent.index_lt valid) 0 types
  have valid' : (f.newParams id 0 types).2.isValidBlock id = true := by
    simpa only [isValidBlock, blocks] using valid
  have result := created.setParams valid' params
  simpa only [Function.setBlockParams, block, blocks] using result

theorem appendBlockParam (valid : f.isValidBlock id = true) (type : TypeId) :
    (f.appendBlockParam id type).2.Consistent := by
  have created := consistent.newValue
    (show ValueKind.blockParam ≠ .instResult by simp) type (BitVec.ofNat 64 id)
    (BitVec.ofNat 64 (f.block id).params.length)
  refine created.setParams valid ?_
  intro v member
  rcases mem_append.mp member with old | new
  · obtain ⟨-, valueValid, isParam, index⟩ := created.params id v old
    exact ⟨valueValid, isParam, index⟩
  · rw [mem_singleton.mp new]
    refine ⟨Slots.isValid_iff.mpr ⟨consistent.valuesPos, lt_succ_self _⟩, ?_⟩
    simp only [Function.newValue, value, Slots.get_push_self, true_and]
    exact payloadIndex_ofNat (consistent.index_lt valid)

theorem renumberParams (position : ℕ) (params : List ValueId) :
    (f.renumberParams position params).Consistent := by
  induction params generalizing f position with
  | nil => exact consistent
  | cons param rest ih =>
    rw [Function.renumberParams]
    apply ih
    refine consistent.congr rfl rfl rfl (fun _ => rfl) (fun _ => rfl) rfl ?_ ?_
    all_goals
      intro v
      by_cases same : v = param
      · subst same
        simp [value]
      · simp [value, Slots.get_set_ne _ _ same]

theorem removeBlockParam (valid : f.isValidBlock id = true) (index : ℕ) :
    (f.removeBlockParam id index).Consistent := by
  apply renumberParams
  refine consistent.setParams valid ?_
  intro v member
  obtain ⟨-, rest⟩ := consistent.params id v (mem_of_mem_eraseIdx member)
  exact rest

theorem pushBlock (room : f.blocks.size < 2 ^ 32) {params : List ValueId}
    (allowed : ParamsOf f f.blocks.size params) :
    Consistent { f with
      blocks := f.blocks.push { params }
      layout := f.layout ++ [f.blocks.size] } := by
  have stillValid : ∀ b, f.isValidBlock b = true → (f.blocks.push { params }).isValid b = true := by
    intro b valid
    obtain ⟨positive, bounded⟩ := Slots.isValid_iff.mp valid
    exact Slots.isValid_iff.mpr ⟨positive, lt_succ_of_lt bounded⟩
  have newValid : (f.blocks.push { params }).isValid f.blocks.size = true :=
    Slots.isValid_iff.mpr ⟨consistent.blocksBound.1, lt_succ_self _⟩
  have old : ∀ b, f.isValidBlock b = true → (f.blocks.push { params }).get b = f.blocks.get b := by
    intro b valid
    exact Slots.get_push_of_valid _ _ (Slots.isValid_iff.mp valid).2
  obtain ⟨h1, h2, h3, h4, h5, h6, h7, h8, h9, h10, h11, h12⟩ := consistent
  constructor
  · refine nodup_append.mpr ⟨h1, nodup_singleton _, ?_⟩
    intro b member other new same
    have bounded := (Slots.isValid_iff.mp (h2 b member)).2
    rw [same, mem_singleton.mp new] at bounded
    exact Nat.lt_irrefl _ bounded
  · intro b member
    rcases mem_append.mp member with before | new
    · exact stillValid b (h2 b before)
    · rw [mem_singleton.mp new]
      exact newValid
  · exact ⟨succ_pos _, room⟩
  · exact h4
  · exact h5
  · intro b i member
    by_cases new : b = f.blocks.size
    · subst new
      simp [blockInsts, block] at member
    · rw [blockInsts, block, Slots.get_push_ne _ _ new] at member
      obtain ⟨valid, rest⟩ := h6 b i member
      exact ⟨stillValid b valid, rest⟩
  · intro i owned
    have member := h7 i owned
    have valid := (h6 _ i member).1
    rw [blockInsts, block]
    exact (old _ valid).symm ▸ member
  · intro b
    by_cases new : b = f.blocks.size
    · subst new
      simp [blockInsts, block]
    · rw [blockInsts, block, Slots.get_push_ne _ _ new]
      exact h8 b
  · exact h9
  · exact h10
  · exact h11
  · intro b v member
    by_cases new : b = f.blocks.size
    · subst new
      have inParams : v ∈ params := by
        simpa [blockParams, block] using member
      exact ⟨newValid, allowed v inParams⟩
    · rw [blockParams, block, Slots.get_push_ne _ _ new] at member
      obtain ⟨valid, rest⟩ := h12 b v member
      exact ⟨stillValid b valid, rest⟩

theorem createBlock (room : f.blocks.size < 2 ^ 32) (types : List TypeId) :
    (f.createBlock types).2.Consistent := by
  obtain ⟨created, layout, blocks, -, -, params⟩ := consistent.newParams room 0 types
  have allowed : ParamsOf (f.newParams f.blocks.size 0 types).2
      (f.newParams f.blocks.size 0 types).2.blocks.size
      (f.newParams f.blocks.size 0 types).1 := by
    rw [blocks]
    exact params
  have result := created.pushBlock (blocks.symm ▸ room) allowed
  simpa only [Function.createBlock, blocks] using result

theorem removeBlock (id : BlockId) :
    (f.removeBlock id).Consistent := by
  obtain ⟨h1, h2, h3, h4, h5, h6, h7, h8, h9, h10, h11, h12⟩ := consistent
  exact ⟨h1.erase id, fun b member => h2 b (mem_of_mem_erase member),
    h3, h4, h5, h6, h7, h8, h9, h10, h11, h12⟩

theorem pushInst (room : f.insts.size < 2 ^ 32) {data : InstData} (detached : data.block = 0)
    (silent : data.result = 0) :
    Consistent { f with insts := f.insts.push data } := by
  have stillValid : ∀ i, f.isValidInst i = true → (f.insts.push data).isValid i = true := by
    intro i valid
    obtain ⟨positive, bounded⟩ := Slots.isValid_iff.mp valid
    exact Slots.isValid_iff.mpr ⟨positive, lt_succ_of_lt bounded⟩
  have old : ∀ i, f.isValidInst i = true → (f.insts.push data).get i = f.insts.get i := by
    intro i valid
    exact Slots.get_push_of_valid _ _ (Slots.isValid_iff.mp valid).2
  obtain ⟨h1, h2, h3, h4, h5, h6, h7, h8, h9, h10, h11, h12⟩ := consistent
  constructor
  · exact h1
  · exact h2
  · exact h3
  · exact ⟨succ_pos _, room⟩
  · exact h5
  · intro b i member
    obtain ⟨blockValid, instValid, owner⟩ := h6 b i member
    refine ⟨blockValid, stillValid i instValid, ?_⟩
    rw [inst]
    exact (congrArg InstData.block (old i instValid)).trans owner
  · intro i owned
    by_cases new : i = f.insts.size
    · subst new
      simp only [inst, Slots.get_push_self] at owned
      exact absurd detached owned
    · rw [inst] at owned ⊢
      rw [Slots.get_push_ne _ _ new] at owned ⊢
      exact h7 i owned
  · exact h8
  · intro i produces
    by_cases new : i = f.insts.size
    · subst new
      simp only [inst, Slots.get_push_self] at produces
      exact absurd silent produces
    · rw [inst] at produces ⊢
      rw [Slots.get_push_ne _ _ new] at produces ⊢
      obtain ⟨instValid, rest⟩ := h9 i produces
      exact ⟨stillValid i instValid, rest⟩
  · intro v isResult
    have same := h10 v isResult
    have valid : f.isValidInst (payloadIndex (f.value v)) = true := by
      refine (h9 _ ?_).1
      rw [same]
      exact Nat.pos_iff_ne_zero.mp (Slots.isValid_iff.mp (h11 v isResult)).1
    rw [inst]
    exact (congrArg InstData.result (old _ valid)).trans same
  · exact h11
  · exact h12

end

variable {i : InstId}

/-- Gives an instruction that defines nothing a new value to define. -/
theorem defineResult (consistent : f.Consistent) (valid : f.isValidInst i = true)
    (silent : (f.inst i).result = 0) (type : TypeId) :
    Consistent { f with
      values := f.values.push ⟨.instResult, type, BitVec.ofNat 64 i, 0⟩
      insts := f.insts.set i { f.inst i with type, result := f.values.size } } := by
  let g : Function := { f with
    values := f.values.push ⟨.instResult, type, BitVec.ofNat 64 i, 0⟩
    insts := f.insts.set i { f.inst i with type, result := f.values.size } }
  have bounded : i < 2 ^ 32 :=
    Nat.lt_of_lt_of_le (Slots.isValid_iff.mp valid).2 consistent.instsBound.2
  have self : g.inst i = { f.inst i with type, result := f.values.size } := Slots.get_set_self _ _ _
  have other : ∀ j, j ≠ i → g.inst j = f.inst j := fun j different => Slots.get_set_ne _ _ different
  have owner : ∀ j, (g.inst j).block = (f.inst j).block := by
    intro j
    by_cases same : j = i
    · subst same
      rw [self]
    · rw [other j same]
  have newValue : g.value f.values.size =
      ⟨.instResult, type, BitVec.ofNat 64 i, 0⟩ := Slots.get_push_self _ _
  have newValid : g.isValidValue f.values.size = true :=
    Slots.isValid_iff.mpr ⟨consistent.valuesPos, lt_succ_self _⟩
  have stillValid : ∀ v, f.isValidValue v = true → g.isValidValue v = true := by
    intro v valid
    obtain ⟨positive, inside⟩ := Slots.isValid_iff.mp valid
    exact Slots.isValid_iff.mpr ⟨positive, lt_succ_of_lt inside⟩
  have oldValue : ∀ v, v ≠ f.values.size → g.value v = f.value v :=
    fun v different => Slots.get_push_ne _ _ different
  have validValue : ∀ v, f.isValidValue v = true → g.value v = f.value v :=
    fun v valid => oldValue v (Nat.ne_of_lt (Slots.isValid_iff.mp valid).2)
  obtain ⟨h1, h2, h3, h4, h5, h6, h7, h8, h9, h10, h11, h12⟩ := consistent
  refine ⟨h1, h2, h3, h4, succ_pos _, ?_, ?_, h8, ?_, ?_, ?_, ?_⟩
  · intro b j member
    obtain ⟨blockValid, instValid, owned⟩ := h6 b j member
    exact ⟨blockValid, instValid, (owner j).trans owned⟩
  · intro j owned
    change (g.inst j).block ≠ 0 at owned
    change j ∈ f.blockInsts (g.inst j).block
    rw [owner j] at owned ⊢
    exact h7 j owned
  · intro j produces
    change (g.inst j).result ≠ 0 at produces
    change f.isValidInst j = true ∧ g.isValidValue (g.inst j).result = true ∧
      (g.value (g.inst j).result).kind = .instResult ∧
      payloadIndex (g.value (g.inst j).result) = j
    by_cases same : j = i
    · subst same
      rw [self]
      refine ⟨valid, newValid, ?_⟩
      rw [newValue]
      exact ⟨rfl, payloadIndex_ofNat bounded⟩
    · rw [other j same] at produces ⊢
      obtain ⟨instValid, valueValid, isResult, index⟩ := h9 j produces
      rw [validValue _ valueValid]
      exact ⟨instValid, stillValid _ valueValid, isResult, index⟩
  · intro v isResult
    change (g.value v).kind = .instResult at isResult
    change (g.inst (payloadIndex (g.value v))).result = v
    by_cases new : v = f.values.size
    · subst new
      rw [newValue, payloadIndex_ofNat bounded, self]
    · rw [oldValue v new] at isResult ⊢
      have same := h10 v isResult
      have different : payloadIndex (f.value v) ≠ i := by
        intro equal
        have zero : v = 0 := by rw [← same, equal, silent]
        exact absurd zero (Nat.pos_iff_ne_zero.mp (Slots.isValid_iff.mp (h11 v isResult)).1)
      rw [other _ different]
      exact same
  · intro v isResult
    change (g.value v).kind = .instResult at isResult
    by_cases new : v = f.values.size
    · subst new
      exact newValid
    · rw [oldValue v new] at isResult
      exact stillValid v (h11 v isResult)
  · intro b v member
    obtain ⟨blockValid, valueValid, isParam, index⟩ := h12 b v member
    change f.isValidBlock b = true ∧ g.isValidValue v = true ∧
      (g.value v).kind = .blockParam ∧ payloadIndex (g.value v) = b
    rw [validValue v valueValid]
    exact ⟨blockValid, stillValid v valueValid, isParam, index⟩

theorem makeInst (consistent : f.Consistent) (room : f.insts.size < 2 ^ 32)
    (op : Opcode) (type : TypeId) (operands : List ValueId) (aux : Word)
    (loc : SrcLoc) (flags : ℕ) (aux2 : Word) :
    (f.makeInst op type operands aux loc flags aux2).2.Consistent := by
  let data : InstData := { op, flags, operands, aux, aux2, loc }
  have pushed : Consistent { f with insts := f.insts.push data } := consistent.pushInst room rfl rfl
  have valid : (f.insts.push data).isValid f.insts.size = true :=
    Slots.isValid_iff.mpr ⟨consistent.instsBound.1, lt_succ_self _⟩
  have defined := pushed.defineResult (i := f.insts.size) valid (by simp [inst, data]) type
  simp only [inst, Slots.get_push_self, Slots.set_push_self] at defined
  simp only [Function.makeInst]
  split_ifs
  · exact defined
  · exact pushed

variable {insts : List InstId}

/-- Moving one instruction between lists of its block, or into one. -/
theorem relink (consistent : f.Consistent) (valid : f.isValidInst i = true) {b owner : BlockId}
    (blockValid : f.isValidBlock b = true) (elsewhere : (f.inst i).block = 0 ∨ (f.inst i).block = b)
    (newOwner : owner = 0 ∨ owner = b) (nodup : insts.Nodup)
    (kept : ∀ j, j ≠ i → (j ∈ insts ↔ j ∈ f.blockInsts b)) (linked : i ∈ insts ↔ owner = b) :
    Consistent { f with
      insts := f.insts.set i { f.inst i with block := owner }
      blocks := f.blocks.set b { f.block b with insts } } := by
  let g : Function := { f with
    insts := f.insts.set i { f.inst i with block := owner }
    blocks := f.blocks.set b { f.block b with insts } }
  have bNonzero : b ≠ 0 := Nat.pos_iff_ne_zero.mp (Slots.isValid_iff.mp blockValid).1
  have here : g.blockInsts b = insts := by simp [g, blockInsts, block]
  have there : ∀ c, c ≠ b → g.blockInsts c = f.blockInsts c := by
    intro c different
    simp [g, blockInsts, block, Slots.get_set_ne _ _ different]
  have params : ∀ c, g.blockParams c = f.blockParams c := by
    intro c
    by_cases same : c = b
    · subst same
      simp [g, blockParams, block]
    · simp [g, blockParams, block, Slots.get_set_ne _ _ same]
  have self : (g.inst i).block = owner := by simp [g, inst]
  have other : ∀ j, j ≠ i → g.inst j = f.inst j := fun j different => Slots.get_set_ne _ _ different
  have results : ∀ j, (g.inst j).result = (f.inst j).result := by
    intro j
    by_cases same : j = i
    · subst same
      simp [g, inst]
    · rw [other j same]
  obtain ⟨h1, h2, h3, h4, h5, h6, h7, h8, h9, h10, h11, h12⟩ := consistent
  refine ⟨h1, h2, h3, h4, h5, ?_, ?_, ?_, ?_, ?_, h11, ?_⟩
  · intro c j member
    change j ∈ g.blockInsts c at member
    change f.isValidBlock c = true ∧ f.isValidInst j = true ∧ (g.inst j).block = c
    by_cases sameInst : j = i
    · subst sameInst
      by_cases sameBlock : c = b
      · subst sameBlock
        rw [here] at member
        exact ⟨blockValid, valid, self.trans (linked.mp member)⟩
      · -- the instruction was in no other block's list
        rw [there c sameBlock] at member
        obtain ⟨cValid, -, owned⟩ := h6 c j member
        rcases elsewhere with nowhere | inB
        · have zero : c = 0 := owned.symm.trans nowhere
          exact absurd zero (Nat.pos_iff_ne_zero.mp (Slots.isValid_iff.mp cValid).1)
        · exact absurd (owned.symm.trans inB) sameBlock
    · rw [other j sameInst]
      by_cases sameBlock : c = b
      · subst sameBlock
        rw [here] at member
        exact h6 c j ((kept j sameInst).mp member)
      · rw [there c sameBlock] at member
        exact h6 c j member
  · intro j owned
    change (g.inst j).block ≠ 0 at owned
    change j ∈ g.blockInsts (g.inst j).block
    by_cases sameInst : j = i
    · subst sameInst
      rw [self] at owned ⊢
      have inB : owner = b := newOwner.resolve_left owned
      rw [inB, here]
      exact linked.mpr inB
    · rw [other j sameInst] at owned ⊢
      have member := h7 j owned
      by_cases sameBlock : (f.inst j).block = b
      · rw [sameBlock, here]
        exact (kept j sameInst).mpr (sameBlock ▸ member)
      · rw [there _ sameBlock]
        exact member
  · intro c
    change (g.blockInsts c).Nodup
    by_cases same : c = b
    · subst same
      rw [here]
      exact nodup
    · rw [there c same]
      exact h8 c
  · intro j
    change (g.inst j).result ≠ 0 → f.isValidInst j = true ∧
      f.isValidValue (g.inst j).result = true ∧
      (f.value (g.inst j).result).kind = .instResult ∧
      payloadIndex (f.value (g.inst j).result) = j
    rw [results j]
    exact h9 j
  · intro v isResult
    change (g.inst (payloadIndex (f.value v))).result = v
    rw [results]
    exact h10 v isResult
  · intro c v member
    have bValid : ∀ c, f.isValidBlock c = true → (f.blocks.set b
        { f.block b with insts }).isValid c = true := fun c valid => valid
    have before : v ∈ f.blockParams c := params c ▸ member
    obtain ⟨cValid, rest⟩ := h12 c v before
    exact ⟨bValid c cValid, rest⟩

theorem not_linked (consistent : f.Consistent) (detached : (f.inst i).block = 0) (b : BlockId) :
    i ∉ f.blockInsts b := by
  intro member
  obtain ⟨blockValid, -, owned⟩ := consistent.attached b i member
  rw [detached] at owned
  exact absurd owned.symm (Nat.pos_iff_ne_zero.mp (Slots.isValid_iff.mp blockValid).1)

theorem appendInst (consistent : f.Consistent) {b : BlockId} (blockValid : f.isValidBlock b = true)
    (valid : f.isValidInst i = true) (detached : (f.inst i).block = 0) :
    (f.appendInst b i).Consistent := by
  have absent := consistent.not_linked detached b
  refine consistent.relink valid blockValid (.inl detached) (.inr rfl) ?_ ?_ ?_
  · refine nodup_append.mpr ⟨consistent.instsNodup b, by simp, ?_⟩
    intro j member other last same
    rw [same, mem_singleton.mp last] at member
    exact absent member
  · intro j different
    simp [different]
  · simp

variable {position : InstId}

theorem mem_insertInFront {j : InstId} (different : j ≠ i) :
    j ∈ insertInFront position i insts ↔ j ∈ insts := by
  induction insts with
  | nil => simp [insertInFront]
  | cons head rest ih =>
    rw [insertInFront]
    split <;> simp [different, ih]

theorem insertInFront_self (present : position ∈ insts) : i ∈ insertInFront position i insts := by
  induction insts with
  | nil => cases present
  | cons head rest ih =>
    rw [insertInFront]
    split
    · exact mem_cons_self
    · rcases mem_cons.mp present with first | later
      · exact absurd first.symm ‹_›
      · exact mem_cons_of_mem _ (ih later)

theorem nodup_insertInFront (nodup : insts.Nodup) (absent : i ∉ insts) :
    (insertInFront position i insts).Nodup := by
  induction insts with
  | nil => simp [insertInFront]
  | cons head rest ih =>
    obtain ⟨headAbsent, restNodup⟩ := nodup_cons.mp nodup
    have different : head ≠ i := fun same => absent (same ▸ mem_cons_self)
    rw [insertInFront]
    split
    · exact nodup_cons.mpr ⟨absent, nodup⟩
    · refine nodup_cons.mpr ⟨?_, ih restNodup (fun member => absent (mem_cons_of_mem _ member))⟩
      rwa [mem_insertInFront different]

theorem insertBefore (consistent : f.Consistent) (attached : (f.inst position).block ≠ 0)
    (valid : f.isValidInst i = true) (detached : (f.inst i).block = 0) :
    (f.insertBefore position i).Consistent := by
  have member := consistent.linked position attached
  have blockValid := (consistent.attached _ position member).1
  refine consistent.relink valid blockValid (.inl detached) (.inr rfl) ?_ ?_ ?_
  · exact nodup_insertInFront (consistent.instsNodup _) (consistent.not_linked detached _)
  · intro j different
    exact mem_insertInFront different
  · simpa using insertInFront_self member

theorem removeInst (consistent : f.Consistent) (attached : (f.inst i).block ≠ 0) :
    (f.removeInst i).Consistent := by
  have member := consistent.linked i attached
  obtain ⟨blockValid, valid, -⟩ := consistent.attached _ i member
  have nodup := consistent.instsNodup (f.inst i).block
  refine consistent.relink valid blockValid (.inr rfl) (.inl rfl) (nodup.erase i) ?_ ?_
  · intro j different
    exact mem_erase_of_ne different
  · constructor
    · intro still
      exact absurd still nodup.not_mem_erase
    · intro zero
      exact absurd zero.symm attached

theorem setInst (consistent : f.Consistent) {data : InstData}
    (owner : data.block = (f.inst i).block) (result : data.result = (f.inst i).result) :
    Consistent { f with insts := f.insts.set i data } := by
  refine consistent.congr rfl rfl rfl ?_ ?_ rfl (fun _ => rfl) (fun _ => rfl)
  all_goals
    intro j
    by_cases same : j = i
    · subst same
      simpa [inst]
    · simp [inst, Slots.get_set_ne _ _ same]

end Consistent

theorem Built.consistent (built : f.Built) : f.Consistent := by
  have edges : ∀ {g : Function} (calls : Slots BlockCall), g.Consistent →
      Consistent { g with blockCalls := calls } := fun _ consistent =>
    consistent.congr rfl rfl rfl (fun _ => rfl) (fun _ => rfl) rfl (fun _ => rfl) fun _ => rfl
  induction built with
  | new name sig => exact .new name sig
  | createBlock types _ room ih => exact ih.createBlock room types
  | appendBlockParam type _ valid ih => exact ih.appendBlockParam valid type
  | removeBlockParam _ valid _ ih => exact ih.removeBlockParam valid _
  | setBlockParams types _ valid ih => exact ih.setBlockParams valid types
  | removeBlock _ _ _ ih => exact ih.removeBlock _
  | internConstant type payload payload2 _ notResult _ ih =>
    exact ih.internConstant notResult type payload payload2
  | retypeValue type _ _ _ ih => exact ih.retypeValue _ type
  | makeInst op type operands aux loc flags aux2 _ _ room ih =>
    exact ih.makeInst room op type operands aux loc flags aux2
  | appendInst _ blockValid valid detached ih =>
    exact ih.appendInst blockValid valid detached
  | insertBefore _ _ valid attached detached ih =>
    exact ih.insertBefore attached valid detached
  | removeInst _ _ attached ih => exact ih.removeInst attached
  | setOperand v _ _ _ ih | setInstAux aux _ _ ih => exact ih.setInst rfl rfl
  | makeBlockCall args _ _ ih | setBlockCallArg v _ _ _ ih | appendBlockCallArg v _ _ ih
  | removeBlockCallArg _ _ _ ih | setBlockCallArgs args _ _ ih | setBlockCallTarget _ _ _ ih =>
    exact edges _ ih
  | makeJumpTable cases _ ih | makeBlockCallList calls _ ih | replaceAllUses _ _ _ ih =>
    exact ih.congr rfl rfl rfl (fun _ => rfl) (fun _ => rfl) rfl (fun _ => rfl) fun _ => rfl

end Function

end Aburi.Air
