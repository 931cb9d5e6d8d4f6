import Aburi.Air.Built

/-!
# Results of instructions

An instruction whose opcode defines a value has a result, and the result is a
value of the type that the instruction records.
-/

namespace Aburi.Air

open Aburi.Lib

namespace Function

structure Labelled (f : Function) : Prop where
  types : ∀ i, (f.inst i).result ≠ 0 → f.valueType (f.inst i).result = (f.inst i).type
  produced : ∀ i, f.isValidInst i = true → (f.inst i).op.resultKind = .value →
    (f.inst i).result ≠ 0

namespace Labelled

variable {f : Function}

section

variable {g : Function} (labelled : f.Labelled)
include labelled

theorem congr (size : g.insts.size = f.insts.size) (op : ∀ i, (g.inst i).op = (f.inst i).op)
    (result : ∀ i, (g.inst i).result = (f.inst i).result)
    (type : ∀ i, (g.inst i).type = (f.inst i).type)
    (values : ∀ i, (f.inst i).result ≠ 0 →
      g.valueType (f.inst i).result = f.valueType (f.inst i).result) : g.Labelled := by
  constructor
  · intro i produces
    rw [result] at produces ⊢
    rw [type, values i produces]
    exact labelled.types i produces
  · intro i valid kind
    rw [op] at kind
    rw [result]
    refine labelled.produced i ?_ kind
    simpa only [isValidInst, Slots.isValid, size] using valid

theorem ofTables (values : g.values = f.values) (insts : g.insts = f.insts) : g.Labelled := by
  refine labelled.congr (by rw [insts]) ?_ ?_ ?_ ?_
  all_goals
    intro i
    simp [inst, valueType, value, insts, values]

/-- Changes of an instruction that leave its opcode, its result and its type. -/
theorem setInst {i : InstId} {data : InstData} (values : g.values = f.values)
    (insts : g.insts = f.insts.set i data) (op : data.op = (f.inst i).op)
    (result : data.result = (f.inst i).result) (type : data.type = (f.inst i).type) :
    g.Labelled := by
  have unchanged : ∀ j, (g.inst j).op = (f.inst j).op ∧
      (g.inst j).result = (f.inst j).result ∧ (g.inst j).type = (f.inst j).type := by
    intro j
    rw [inst, insts]
    by_cases same : j = i
    · subst same
      rw [Slots.get_set_self]
      exact ⟨op, result, type⟩
    · rw [Slots.get_set_ne _ _ same]
      exact ⟨rfl, rfl, rfl⟩
  refine labelled.congr (by rw [insts]; rfl) (fun j => (unchanged j).1)
    (fun j => (unchanged j).2.1) (fun j => (unchanged j).2.2) ?_
  intro j _
  simp only [valueType, value, values]

end

section

variable (labelled : f.Labelled)
include labelled

/-- New values are not results that exist. -/
theorem newValue (consistent : f.Consistent) (kind : ValueKind) (type : TypeId)
    (payload payload2 : Word) :
    (f.newValue kind type payload payload2).2.Labelled := by
  refine labelled.congr rfl (fun _ => rfl) (fun _ => rfl) (fun _ => rfl) ?_
  intro i produces
  have valid := (consistent.results i produces).2.1
  simp only [valueType, value, Function.newValue]
  rw [Slots.get_push_of_valid _ _ (Slots.isValid_iff.mp valid).2]

theorem newParams (consistent : f.Consistent) (id : BlockId) (position : ℕ) (types : List TypeId) :
    (f.newParams id position types).2.Labelled := by
  induction types generalizing f position with
  | nil => exact labelled
  | cons type rest ih =>
    rw [Function.newParams]
    apply ih
    · exact labelled.newValue consistent _ _ _ _
    · exact consistent.newValue (by simp) _ _ _

theorem renumberParams (position : ℕ) (params : List ValueId) :
    (f.renumberParams position params).Labelled := by
  induction params generalizing f position with
  | nil => exact labelled
  | cons param rest ih =>
    rw [Function.renumberParams]
    apply ih
    refine labelled.congr rfl (fun _ => rfl) (fun _ => rfl) (fun _ => rfl) ?_
    intro i _
    by_cases same : (f.inst i).result = param
    · simp [valueType, value, same]
    · simp [valueType, value, Slots.get_set_ne _ _ same]

theorem retypeValue (consistent : f.Consistent) (id : ValueId) (type : TypeId) :
    (f.retypeValue id type).Labelled := by
  rw [Function.retypeValue]
  split
  case isTrue isResult =>
    constructor
    · intro i produces
      by_cases same : i = payloadIndex (f.value id)
      · subst same
        have defined : (f.inst (payloadIndex (f.value id))).result = id :=
          consistent.defs id isResult
        simp [inst, valueType, value] at defined ⊢
        simp [defined]
      · change ((f.insts.set _ _).get i).result ≠ 0 at produces
        change ((f.values.set id _).get ((f.insts.set _ _).get i).result).type =
          ((f.insts.set _ _).get i).type
        rw [Slots.get_set_ne _ _ same] at produces ⊢
        have different : (f.insts.get i).result ≠ id := by
          intro result
          exact same (result ▸ (consistent.results i produces).2.2.2).symm
        rw [Slots.get_set_ne _ _ different]
        exact labelled.types i produces
    · intro i valid kind
      by_cases same : i = payloadIndex (f.value id)
      · subst same
        simp only [inst, Slots.get_set_self] at kind ⊢
        exact labelled.produced _ valid kind
      · simp only [inst, Slots.get_set_ne _ _ same] at kind ⊢
        exact labelled.produced i valid kind
  case isFalse notResult =>
    refine labelled.congr rfl (fun _ => rfl) (fun _ => rfl) (fun _ => rfl) ?_
    intro i produces
    have different : (f.inst i).result ≠ id := by
      rintro rfl
      exact notResult (consistent.results i produces).2.2.1
    simp [valueType, value, Slots.get_set_ne _ _ different]

theorem makeInst (consistent : f.Consistent) (op : Opcode) (type : TypeId) (operands : List ValueId)
    (aux : Word) (loc : SrcLoc) (flags : ℕ) (aux2 : Word) :
    (f.makeInst op type operands aux loc flags aux2).2.Labelled := by
  have other : ∀ {data : InstData} {i : InstId}, i ≠ f.insts.size →
      (f.insts.push data).get i = f.inst i := fun different =>
    Slots.get_push_ne _ _ different
  have older : ∀ {data : InstData} {i : InstId}, i ≠ f.insts.size →
      (f.insts.push data).isValid i = true → f.isValidInst i = true := by
    intro data i different valid
    obtain ⟨positive, bounded⟩ := Slots.isValid_iff.mp valid
    have inside : i < f.insts.size :=
      (Nat.lt_succ_iff_lt_or_eq.mp bounded).resolve_right different
    exact Slots.isValid_iff.mpr ⟨positive, inside⟩
  simp only [Function.makeInst]
  split_ifs with hasResult
  · constructor
    · intro i produces
      by_cases new : i = f.insts.size
      · subst new
        simp [inst, valueType, value, Function.newValue]
      · simp only [inst, valueType, value, Function.newValue, other new] at produces ⊢
        have valid : f.isValidValue (f.insts.get i).result = true :=
          (consistent.results i produces).2.1
        rw [Slots.get_push_of_valid _ _ (Slots.isValid_iff.mp valid).2]
        exact labelled.types i produces
    · intro i valid kind
      by_cases new : i = f.insts.size
      · subst new
        simp only [inst, Slots.get_push_self, Function.newValue]
        exact Nat.pos_iff_ne_zero.mp consistent.valuesPos
      · simp only [inst, other new] at kind ⊢
        exact labelled.produced i (older new valid) kind
  · constructor
    · intro i produces
      by_cases new : i = f.insts.size
      · subst new
        simp [inst] at produces
      · simp only [inst, valueType, value, other new] at produces ⊢
        exact labelled.types i produces
    · intro i valid kind
      by_cases new : i = f.insts.size
      · subst new
        simp only [inst, Slots.get_push_self] at kind
        simp [kind] at hasResult
      · simp only [inst, other new] at kind ⊢
        exact labelled.produced i (older new valid) kind

end

end Labelled

theorem Built.labelled {f : Function} (built : f.Built) : f.Labelled := by
  induction built with
  | new name sig =>
    constructor
    · exact fun i produces => absurd rfl produces
    · intro i _ kind
      cases kind
  | createBlock types built _ ih | setBlockParams types built _ ih =>
    exact (ih.newParams built.consistent _ _ _).ofTables rfl rfl
  | appendBlockParam type built _ ih =>
    exact (ih.newValue built.consistent _ _ _ _).ofTables rfl rfl
  | removeBlockParam _ _ _ ih =>
    rw [Function.removeBlockParam]
    apply Labelled.renumberParams
    exact ih.ofTables rfl rfl
  | internConstant type payload payload2 built _ _ ih =>
    rw [Function.internConstant]
    split
    · exact ih
    · exact ih.newValue built.consistent _ _ _ _
  | retypeValue type built _ _ ih => exact ih.retypeValue built.consistent _ _
  | makeInst op type operands aux loc flags aux2 built _ _ ih =>
    exact ih.makeInst built.consistent op type operands aux loc flags aux2
  | appendInst _ _ _ _ ih | insertBefore _ _ _ _ _ ih | removeInst _ _ _ ih
  | setOperand v _ _ _ ih | setInstAux aux _ _ ih => exact ih.setInst rfl rfl rfl rfl rfl
  | replaceAllUses _ _ _ ih =>
    exact ih.congr rfl (fun _ => rfl) (fun _ => rfl) (fun _ => rfl) fun _ _ => rfl
  | _ =>
    rename_i ih
    exact ih.ofTables rfl rfl

/-- Nothing is stored under names that are not valid. -/
def Blank (f : Function) : Prop := ∀ v, f.isValidValue v = false → f.value v = {}

namespace Blank

variable {f : Function}

section

variable (blank : f.Blank)
include blank

theorem valid_of_ne {v : ValueId} (used : f.value v ≠ {}) :
    f.isValidValue v = true := by
  by_contra invalid
  exact used (blank v (by simpa using invalid))

theorem newValue (positive : 0 < f.values.size) (kind : ValueKind) (type : TypeId)
    (payload payload2 : Word) :
    (f.newValue kind type payload payload2).2.Blank := by
  intro v invalid
  have notNew : v ≠ f.values.size := by
    rintro rfl
    have valid : (f.newValue kind type payload payload2).2.isValidValue f.values.size = true :=
      Slots.isValid_iff.mpr ⟨positive, Nat.lt_succ_self _⟩
    rw [valid] at invalid
    cases invalid
  have notOld : f.isValidValue v = false := by
    by_contra valid
    obtain ⟨nonzero, bounded⟩ := Slots.isValid_iff.mp (Bool.not_eq_false _ ▸ valid)
    have still : (f.newValue kind type payload payload2).2.isValidValue v = true :=
      Slots.isValid_iff.mpr ⟨nonzero, Nat.lt_succ_of_lt bounded⟩
    rw [still] at invalid
    cases invalid
  exact (Slots.get_push_ne f.values _ notNew).trans (blank v notOld)

theorem newParams (positive : 0 < f.values.size) (id : BlockId) (position : ℕ) (types : List TypeId) :
    (f.newParams id position types).2.Blank := by
  induction types generalizing f position with
  | nil => exact blank
  | cons type rest ih =>
    rw [Function.newParams]
    exact ih (blank.newValue positive _ _ _ _) (Nat.succ_pos _) (position + 1)

theorem setValue {g : Function} {id : ValueId} {data : ValueData} (valid : f.isValidValue id = true)
    (values : g.values = f.values.set id data) :
    g.Blank := by
  intro v invalid
  rw [isValidValue, values] at invalid
  have notSet : v ≠ id := by
    rintro rfl
    exact Bool.false_ne_true (invalid.symm.trans valid)
  rw [value, values, Slots.get_set_ne _ _ notSet]
  exact blank v invalid

theorem renumberParams (position : ℕ) {params : List ValueId}
    (valid : ∀ v ∈ params, f.isValidValue v = true) :
    (f.renumberParams position params).Blank := by
  induction params generalizing f position with
  | nil => exact blank
  | cons param rest ih =>
    rw [Function.renumberParams]
    apply ih
    · exact blank.setValue (valid param List.mem_cons_self) rfl
    · intro v member
      exact valid v (List.mem_cons_of_mem _ member)

end

end Blank

theorem Built.blank {f : Function} (built : f.Built) : f.Blank := by
  induction built with
  | new name sig => exact fun _ _ => rfl
  | createBlock types built _ ih | setBlockParams types built _ ih =>
    exact ih.newParams built.consistent.valuesPos _ _ _
  | appendBlockParam type built _ ih => exact ih.newValue built.consistent.valuesPos _ _ _ _
  | removeBlockParam built _ _ ih =>
    apply Blank.renumberParams
    · exact ih
    · intro v member
      exact (built.consistent.params _ v (List.mem_of_mem_drop member)).2.1
  | internConstant type payload payload2 built _ _ ih =>
    rw [Function.internConstant]
    split
    · exact ih
    · exact ih.newValue built.consistent.valuesPos _ _ _ _
  | retypeValue type built valid _ ih =>
    rw [Function.retypeValue]
    dsimp only
    split <;> exact ih.setValue valid rfl
  | makeInst op type operands aux loc flags aux2 built _ _ ih =>
    simp only [Function.makeInst]
    split_ifs
    · exact ih.newValue built.consistent.valuesPos _ _ _ _
    · exact ih
  | _ =>
    rename_i ih
    exact ih

end Function

end Aburi.Air
