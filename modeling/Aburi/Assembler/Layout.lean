import Aburi.Assembler.Expand
import Mathlib.Algebra.BigOperators.Group.List.Basic
import Mathlib.Data.List.Forall2
import Mathlib.Order.Nat

/-!
# Layouts

A layout that the relaxation settles on gives every field as many bytes as its
size says, and leaves the fields where they stand.
-/

namespace Aburi.Asm

open Aburi.Lib List Option

theorem forall₂_of_mapM {α β : Type} {f : α → Option β} {inputs : List α} {outputs : List β}
    (mapped : inputs.mapM f = some outputs) :
    List.Forall₂ (fun input output => f input = some output) inputs outputs := by
  induction inputs generalizing outputs with
  | nil =>
    simp only [mapM_nil, Option.pure_def, Option.some.injEq] at mapped
    subst mapped
    exact .nil
  | cons input inputs induction =>
    simp only [mapM_cons, bind_eq_bind, Option.pure_def, bind_eq_some_iff] at mapped
    obtain ⟨output, isOutput, rest, isRest, same⟩ := mapped
    simp only [Option.some.injEq] at same
    subst same
    exact .cons isOutput (induction isRest)

theorem getElem?_of_mapM_range {β : Type} {f : ℕ → Option β} {count : ℕ} {outputs : List β}
    (mapped : (List.range count).mapM f = some outputs) :
    outputs.length = count ∧ ∀ index < count, outputs[index]? = f index := by
  have paired := forall₂_of_mapM mapped
  have length := paired.length_eq
  rw [length_range] at length
  refine ⟨length.symm, fun index small => ?_⟩
  have entry := List.forall₂_iff_get.mp paired
  have same := entry.2 index (by simpa using small) (by omega)
  simp only [get_eq_getElem, getElem_range] at same
  rw [List.getElem?_eq_getElem (by omega), same]

theorem nopLoop_length {fuel count : ℕ} (enough : count ≤ fuel) :
    (nopLoop fuel count).length = count := by
  induction fuel generalizing count with
  | zero =>
    have : count = 0 := by omega
    simp [nopLoop, this]
  | succ fuel induction =>
    rw [nopLoop]
    split
    case isTrue isZero => simp [isZero]
    case isFalse nonzero =>
      have entry : ∀ length < 11, 0 < length → (nops.getD (length - 1) []).length = length := by
        decide
      dsimp only
      generalize isLength : (if 10 < count then 10 else count) = length
      have small : length < 11 ∧ 0 < length ∧ length ≤ count := by
        rw [← isLength]
        split <;> omega
      rw [length_append, entry length small.1 small.2.1, induction (by omega)]
      omega

theorem nopPadding_length (count : ℕ) : (nopPadding count).length = count :=
  nopLoop_length (le_refl _)

namespace Assembler

/-- What stays the same while sizes are iterated. -/
def Fixed (field : DeferredField) : DeferredKind × ℕ × DeferredBranch :=
  (field.kind, field.rawOffset, field.branch)

/-- A branch that cannot be patched never has a short form. -/
def BranchSized (field : DeferredField) : Prop :=
  field.kind = .branch → field.branch.patchable = true ∨ field.branch.nearBytes.length ≤ field.size

theorem withSizes_getElem? {fields : List DeferredField} {sizes : List ℕ} {index : ℕ} :
    (withSizes fields sizes)[index]? =
      (fields[index]?).bind fun field => (sizes[index]?).map fun size => { field with size } := by
  rw [withSizes, getElem?_zipWith]
  cases fields[index]? <;> cases sizes[index]? <;> rfl

section Kept

variable {α : Type} {kept : DeferredField → α}

/-- One more round keeps what does not depend on sizes. -/
theorem withSizes_map (ignores : ∀ field size, kept { field with size } = kept field)
    {fields : List DeferredField} {sizes : List ℕ} (sameLength : sizes.length = fields.length) :
    (withSizes fields sizes).map kept = fields.map kept := by
  apply ext_getElem?
  intro index
  rw [getElem?_map, getElem?_map, withSizes_getElem?]
  cases isField : fields[index]? with
  | none => rfl
  | some field =>
    have small : index < fields.length := (List.getElem?_eq_some_iff.mp isField).1
    rw [List.getElem?_eq_getElem (by omega)]
    exact congrArg some (ignores field _)

theorem relax_map (ignores : ∀ field size, kept { field with size } = kept field)
    {assembler : Assembler} {sectionIndex limit : ℕ} {started fields : List DeferredField}
    (relaxed : assembler.relax sectionIndex limit started = some fields) :
    fields.map kept = started.map kept := by
  induction limit generalizing started with
  | zero => cases relaxed
  | succ limit induction =>
    rw [relax, bind_eq_some_iff] at relaxed
    obtain ⟨sizes, isSizes, relaxed⟩ := relaxed
    split at relaxed
    case isTrue =>
      cases relaxed
      rfl
    case isFalse =>
      rw [induction relaxed, withSizes_map ignores (getElem?_of_mapM_range isSizes).1]

end Kept

/-- Sizes that another round does not change. -/
structure Settled (assembler : Assembler) (sectionIndex : ℕ) (started fields : List DeferredField) :
    Prop where
  fixed : fields.map Fixed = started.map Fixed
  branches : ∀ field ∈ fields, BranchSized field
  stable : ∀ index field, fields[index]? = some field →
    assembler.newSize sectionIndex fields index field = some field.size

theorem newSize_branchSized {assembler : Assembler} {sectionIndex index size : ℕ}
    {fields : List DeferredField} {field : DeferredField} (sized : BranchSized field)
    (isNew : assembler.newSize sectionIndex fields index field = some size) :
    BranchSized { field with size } := by
  intro isBranch
  rcases sized isBranch with patchable | atLeast
  · exact .inl patchable
  · right
    have kind : field.kind = .branch := isBranch
    simp only [newSize, kind, atLeast, if_true, Option.some.injEq] at isNew
    exact isNew.le

theorem relax_settled {assembler : Assembler} {sectionIndex limit : ℕ}
    {started fields : List DeferredField} (sized : ∀ field ∈ started, BranchSized field)
    (relaxed : assembler.relax sectionIndex limit started = some fields) :
    Settled assembler sectionIndex started fields := by
  induction limit generalizing started with
  | zero => cases relaxed
  | succ limit induction =>
    rw [relax, bind_eq_some_iff] at relaxed
    obtain ⟨sizes, isSizes, relaxed⟩ := relaxed
    obtain ⟨sameLength, entries⟩ := getElem?_of_mapM_range isSizes
    have entry : ∀ index field, started[index]? = some field →
        sizes[index]? = assembler.newSize sectionIndex started index field := by
      intro index field isField
      have small : index < started.length := (List.getElem?_eq_some_iff.mp isField).1
      rw [entries index small, isField]
      rfl
    split at relaxed
    case isTrue unchanged =>
      cases relaxed
      refine ⟨rfl, sized, fun index field isField => ?_⟩
      rw [← entry index field isField, unchanged, getElem?_map, isField]
      rfl
    case isFalse changed =>
      have again : ∀ field ∈ withSizes started sizes, BranchSized field := by
        intro field member
        obtain ⟨index, isField⟩ := mem_iff_getElem?.mp member
        rw [withSizes_getElem?, bind_eq_some_iff] at isField
        obtain ⟨old, isOld, isNew⟩ := isField
        rw [map_eq_some_iff] at isNew
        obtain ⟨size, isSize, rfl⟩ := isNew
        rw [entry index old isOld] at isSize
        exact newSize_branchSized (sized old (mem_of_getElem? isOld)) isSize
      have settled := induction again relaxed
      exact ⟨settled.fixed.trans (withSizes_map (fun _ _ => rfl) sameLength),
        settled.branches, settled.stable⟩

theorem nearForm_length (branch : DeferredBranch) (distance : Word64) :
    (nearForm branch distance).length = branch.nearBytes.length := by
  have four : (littleEndian 4 distance).length = 4 := by simp [littleEndian]
  simp only [nearForm, length_append, length_take, length_drop, four]
  omega

section Fields

variable {options : AsmOptions} {assembler : Assembler} {sectionIndex index : ℕ}
  {atoms : List (ℕ × ℕ × SymId)} {fields : List DeferredField} {field : DeferredField}
  {expansion : Expansion}

theorem expandBranch_length (isBranch : field.kind = .branch) (sized : BranchSized field)
    (stable : assembler.newSize sectionIndex fields index field = some field.size)
    (expanded : expandBranch options assembler sectionIndex atoms fields index field =
      some expansion) : expansion.bytes.length = field.size := by
  -- a size that does not change is the short one or the near one
  have forms : field.size = field.branch.nearBytes.length ∨
      field.size = 2 ∧ field.size < field.branch.nearBytes.length := by
    simp only [newSize, isBranch] at stable
    split at stable
    case isTrue atLeast => exact .inl (Option.some.inj stable).symm
    case isFalse below =>
      split at stable
      · exact .inl (Option.some.inj stable).symm
      · have isSize := Option.some.inj stable
        split at isSize
        · exact .inr ⟨isSize.symm, by omega⟩
        · exact .inl isSize.symm
  rw [expandBranch] at expanded
  dsimp only at expanded
  by_cases patchable : field.branch.patchable = true
  · rw [if_pos patchable] at expanded
    split at expanded
    case isTrue short =>
      cases expanded
      exact short.symm
    case isFalse long =>
      cases expanded
      rw [nearForm_length]
      omega
  · rw [if_neg patchable] at expanded
    have near : field.size = field.branch.nearBytes.length := by
      rcases sized isBranch with isPatchable | atLeast
      · exact absurd isPatchable patchable
      · omega
    rw [near]
    split at expanded
    · cases expanded
      exact nearForm_length _ _
    split at expanded
    · cases expanded
    split at expanded
    · cases expanded
    split at expanded
    · split at expanded
      · cases expanded
      · split at expanded
        · cases expanded
          exact nearForm_length _ _
        · cases expanded
    · cases expanded
      exact nearForm_length _ _

theorem expandField_leb (isLeb : field.kind = .uleb ∨ field.kind = .sleb)
    (stable : assembler.newSize sectionIndex fields index field = some field.size)
    (expanded : expandField options assembler sectionIndex atoms fields index field =
      some expansion) :
    ∃ value, assembler.lebValue sectionIndex fields field = some value ∧
      expansion.bytes = lebBytes field.kind value ∧
      field.size = (lebBytes field.kind value).length := by
  rcases isLeb with kind | kind
  all_goals
    simp only [newSize, kind] at stable
    simp only [expandField, kind] at expanded
    obtain ⟨value, isValue, size⟩ := map_eq_some_iff.mp stable
    rw [isValue, map_some] at expanded
    cases expanded
    exact ⟨value, isValue, congrArg (lebBytes · value) kind.symm,
      size.symm.trans (congrArg (fun kind => (lebBytes kind value).length) kind.symm)⟩

theorem expandField_length (sized : BranchSized field)
    (stable : assembler.newSize sectionIndex fields index field = some field.size)
    (expanded : expandField options assembler sectionIndex atoms fields index field =
      some expansion) : expansion.bytes.length = field.size := by
  cases kind : field.kind with
  | align =>
    simp only [expandField, kind, Option.some.injEq] at expanded
    subst expanded
    dsimp only
    split
    · exact nopPadding_length _
    · exact length_replicate
  | branch =>
    simp only [expandField, kind] at expanded
    exact expandBranch_length kind sized stable expanded
  | uleb =>
    obtain ⟨value, -, isBytes, size⟩ := expandField_leb (.inl kind) stable expanded
    rw [isBytes, size]
  | sleb =>
    obtain ⟨value, -, isBytes, size⟩ := expandField_leb (.inr kind) stable expanded
    rw [isBytes, size]

end Fields

/-- A layout that fits the fields of a section. -/
structure Layout.Fits (layout : Layout) (deferred : List DeferredField) : Prop where
  offsets : layout.fields.map DeferredField.rawOffset = deferred.map DeferredField.rawOffset
  sizes : layout.chunks.map List.length = layout.fields.map DeferredField.size

section

variable (options : AsmOptions) (assembler : Assembler) (sectionIndex : ℕ)
  (atoms : List (ℕ × ℕ × SymId)) (index : ℕ) (field : DeferredField)
include options assembler sectionIndex atoms index field

theorem startField_offset :
    (startField options assembler sectionIndex atoms index field).rawOffset = field.rawOffset := by
  rw [startField]
  split <;> rfl

theorem startField_branchSized :
    BranchSized (startField options assembler sectionIndex atoms index field) := by
  rw [startField]
  split
  case isTrue other => exact fun isBranch => absurd isBranch other
  case isFalse =>
    intro _
    dsimp only
    split
    case isTrue short =>
      rw [Bool.and_eq_true] at short
      exact .inl short.1
    case isFalse => exact .inr (le_refl _)

end

theorem layoutSection_fits {options : AsmOptions} {assembler : Assembler} {sectionIndex : ℕ}
    {layout : Layout} (laidOut : assembler.layoutSection options sectionIndex = some layout) :
    layout.Fits (assembler.sections.getD sectionIndex default).deferred := by
  rw [layoutSection] at laidOut
  dsimp only at laidOut
  split at laidOut
  case isTrue empty =>
    cases laidOut
    rw [List.isEmpty_iff] at empty
    rw [empty]
    exact ⟨rfl, rfl⟩
  case isFalse =>
    simp only [bind_eq_bind, bind_eq_some_iff] at laidOut
    obtain ⟨fields, relaxed, expansions, expanded, same⟩ := laidOut
    cases same
    have settled := relax_settled (by
      intro field member
      obtain ⟨index, small, rfl⟩ := mem_mapIdx.mp member
      exact startField_branchSized _ _ _ _ _ _) relaxed
    obtain ⟨count, entries⟩ := getElem?_of_mapM_range expanded
    constructor
    · have offsets := congrArg
        (List.map fun entry : DeferredKind × ℕ × DeferredBranch => entry.2.1) settled.fixed
      rw [List.map_map, List.map_map] at offsets
      refine offsets.trans (ext_getElem? fun index => ?_)
      rw [getElem?_map, getElem?_map, getElem?_mapIdx, Option.map_map]
      apply congrFun (congrArg Option.map _)
      funext field
      exact startField_offset _ _ _ _ _ _
    · apply ext_getElem?
      intro index
      rw [Layout.chunks, getElem?_map, getElem?_map, getElem?_map]
      dsimp only
      cases isField : fields[index]? with
      | none =>
        have large : expansions.length ≤ index := by
          rw [count]
          exact List.getElem?_eq_none_iff.mp isField
        rw [List.getElem?_eq_none_iff.mpr large]
        rfl
      | some field =>
        have small : index < expansions.length := by
          rw [count]
          exact (List.getElem?_eq_some_iff.mp isField).1
        have isExpansion := entries index (by rwa [← count])
        rw [isField, bind_some, List.getElem?_eq_getElem small] at isExpansion
        rw [List.getElem?_eq_getElem small, map_some, map_some, map_some,
          expandField_length (settled.branches field (mem_of_getElem? isField))
            (settled.stable index field isField) isExpansion.symm]

end Assembler

end Aburi.Asm
