import Aburi.Cir.Forms
import Mathlib.Algebra.Ring.Nat
import Mathlib.Tactic.Common

/-!
# What the structural comparison decides

Two payloads compare equal exactly when the forms are equal that keep the
fields it reads, and then the hash mixes the same words for both.  Types of the
language differ in more: in the fields of template arguments that neither of
the two recursions reads.
-/

namespace Aburi.Cir

open List Nat
open Bool (and_eq_true)

open Aburi.Lib (Handle)

section Leaves

variable {Tag : Type}

theorem structuralIdValue_toNat {id : Handle Tag} (valid : id.valid = true) :
    (structuralIdValue id).toNat = id.generation.toNat * 2 ^ 32 + id.index.toNat := by
  have indexBound := id.index.toNat_lt
  have generationBound := id.generation.toNat_lt
  rw [structuralIdValue, if_pos valid, UInt64.toNat_or, UInt64.toNat_shiftLeft]
  simp only [UInt32.toNat_toUInt64, UInt64.reduceToNat, reduceMod]
  rw [mod_eq_of_lt (by rw [shiftLeft_eq]; omega),
    ← shiftLeft_add_eq_or_of_lt indexBound, shiftLeft_eq]

theorem structuralIdValue_of_invalid {id : Handle Tag} (invalid : id.valid = false) :
    structuralIdValue id = 0 := by
  simp [structuralIdValue, invalid]

theorem structuralIdValue_ne_zero {id : Handle Tag} (valid : id.valid = true) :
    structuralIdValue id ≠ 0 := by
  intro zero
  have value := structuralIdValue_toNat valid
  rw [zero] at value
  have positive := Aburi.Lib.Generations.toNat_pos (Handle.valid_iff.mp valid)
  simp only [UInt64.toNat_zero] at value
  omega

theorem idsStructurallyEqual_iff {lhs rhs : Handle Tag} :
    idsStructurallyEqual lhs rhs = true ↔ handleForm lhs = handleForm rhs := by
  rw [idsStructurallyEqual, beq_iff_eq]
  cases left : lhs.valid <;> cases right : rhs.valid
  · simp [handleForm, structuralIdValue_of_invalid, left, right]
  · simp only [structuralIdValue_of_invalid left, handleForm, left, right]
    constructor
    · intro zero
      exact absurd zero.symm (structuralIdValue_ne_zero right)
    · intro equal
      rw [← show ({} : Handle Tag) = rhs by simpa using equal] at right
      simp [Handle.valid] at right
  · simp only [structuralIdValue_of_invalid right, handleForm, left, right]
    constructor
    · intro zero
      exact absurd zero (structuralIdValue_ne_zero left)
    · intro equal
      rw [show lhs = ({} : Handle Tag) by simpa using equal] at left
      simp [Handle.valid] at left
  · simp only [handleForm, left, right, if_true]
    constructor
    · intro equal
      have values := congrArg UInt64.toNat equal
      rw [structuralIdValue_toNat left, structuralIdValue_toNat right] at values
      have leftBound := lhs.index.toNat_lt
      have rightBound := rhs.index.toNat_lt
      have indices : lhs.index = rhs.index := UInt32.toNat_inj.mp (by omega)
      have generations : lhs.generation = rhs.generation := UInt32.toNat_inj.mp (by omega)
      cases lhs
      cases rhs
      simp_all
    · rintro rfl
      rfl

theorem structuralIdValue_handleForm (id : Handle Tag) :
    structuralIdValue (handleForm id) = structuralIdValue id := by
  have := @idsStructurallyEqual_iff Tag (handleForm id) id
  rw [idsStructurallyEqual, beq_iff_eq] at this
  apply this.mpr
  cases valid : id.valid <;> simp [handleForm, valid]

theorem refsStructurallyEqual_iff {lhs rhs : TypeRef} :
    refsStructurallyEqual lhs rhs = true ↔ lhs.form = rhs.form := by
  simp [refsStructurallyEqual, TypeRef.form, idsStructurallyEqual_iff, and_assoc]

theorem listsEqual_iff {α β : Type} {equal : α → α → Bool} {form : α → β}
    (decides : ∀ lhs rhs, equal lhs rhs = true ↔ form lhs = form rhs) {lhs rhs : List α} :
    listsEqual equal lhs rhs = true ↔ lhs.map form = rhs.map form := by
  induction lhs generalizing rhs with
  | nil => cases rhs <;> simp [listsEqual]
  | cons first rest ih =>
    cases rhs with
    | nil => simp [listsEqual]
    | cons second others => simp [listsEqual, decides, ih]

theorem refLists_iff {lhs rhs : List TypeRef} :
    listsEqual refsStructurallyEqual lhs rhs = true ↔
      lhs.map TypeRef.form = rhs.map TypeRef.form :=
  @listsEqual_iff _ _ refsStructurallyEqual TypeRef.form
    (fun _ _ => refsStructurallyEqual_iff) lhs rhs

theorem packReference_equal_iff {lhs rhs : TemplateValuePackReference} :
    lhs.structurallyEqual rhs = true ↔ lhs.form = rhs.form := by
  simp only [TemplateValuePackReference.structurallyEqual, TemplateValuePackReference.form,
    TemplateValuePackReference.mk.injEq, and_eq_true, beq_iff_eq,
    idsStructurallyEqual_iff]
  constructor
  · intro agree
    simp only [agree, and_self]
  · intro agree
    simp only [agree, and_self]

theorem packReferences_equal_iff {lhs rhs : List TemplateValuePackReference} :
    listsEqual TemplateValuePackReference.structurallyEqual lhs rhs = true ↔
      lhs.map TemplateValuePackReference.form = rhs.map TemplateValuePackReference.form :=
  @listsEqual_iff _ _ TemplateValuePackReference.structurallyEqual
    TemplateValuePackReference.form (fun _ _ => packReference_equal_iff) lhs rhs

theorem nodeFields_equal_iff {lhs rhs : TemplateValueExprNodeFields} :
    lhs.structurallyEqual rhs = true ↔ lhs.form = rhs.form := by
  simp only [TemplateValueExprNodeFields.structurallyEqual, TemplateValueExprNodeFields.form,
    TemplateValueExprNodeFields.mk.injEq, and_eq_true, beq_iff_eq,
    idsStructurallyEqual_iff, refsStructurallyEqual_iff,
    packReferences_equal_iff]
  constructor
  · intro agree
    simp only [agree, and_self]
  · intro agree
    simp only [agree, and_self]

theorem argumentFields_equal_iff {lhs rhs : TemplateArgumentFields} :
    lhs.structurallyEqual rhs = true ↔ lhs.comparedForm = rhs.comparedForm := by
  simp only [TemplateArgumentFields.structurallyEqual, TemplateArgumentFields.comparedForm,
    TemplateArgumentFields.languageForm, TemplateArgumentFields.mk.injEq, and_eq_true,
    beq_iff_eq, idsStructurallyEqual_iff, refsStructurallyEqual_iff]
  constructor
  · intro agree
    simp only [agree, and_self]
  · intro agree
    simp only [agree, and_self]

end Leaves

mutual

theorem templateArguments_equal_iff (lhs rhs : TemplateArgument) :
    templateArgumentsStructurallyEqual lhs rhs = true ↔
      lhs.form TemplateArgumentFields.comparedForm =
        rhs.form TemplateArgumentFields.comparedForm := by
  cases lhs with
  | mk fields elements valueExpr countExpr alternative =>
    cases rhs with
    | mk fields' elements' valueExpr' countExpr' alternative' =>
      simp only [templateArgumentsStructurallyEqual, TemplateArgument.form,
        TemplateArgument.mk.injEq, and_eq_true, argumentFields_equal_iff,
        templateValueExprs_equal_iff valueExpr valueExpr',
        templateValueExprs_equal_iff countExpr countExpr',
        templateArgumentLists_equal_iff elements elements']
      tauto
termination_by structural lhs

theorem templateArgumentLists_equal_iff (lhs rhs : List TemplateArgument) :
    templateArgumentListsStructurallyEqual lhs rhs = true ↔
      templateArgumentsForm TemplateArgumentFields.comparedForm lhs =
        templateArgumentsForm TemplateArgumentFields.comparedForm rhs := by
  cases lhs with
  | nil => cases rhs <;> simp [templateArgumentListsStructurallyEqual, templateArgumentsForm]
  | cons first rest =>
    cases rhs with
    | nil => simp [templateArgumentListsStructurallyEqual, templateArgumentsForm]
    | cons second others =>
      simp only [templateArgumentListsStructurallyEqual, templateArgumentsForm,
        List.cons.injEq, and_eq_true, templateArguments_equal_iff first second,
        templateArgumentLists_equal_iff rest others]
termination_by structural lhs

theorem templateValueExprs_equal_iff (lhs rhs : TemplateValueExpression) :
    templateValueExprsStructurallyEqual lhs rhs = true ↔
      lhs.form TemplateArgumentFields.comparedForm =
        rhs.form TemplateArgumentFields.comparedForm := by
  cases lhs with
  | mk nodes root canonicalId =>
    cases rhs with
    | mk nodes' root' canonicalId' =>
      simp only [templateValueExprsStructurallyEqual, TemplateValueExpression.form,
        TemplateValueExpression.mk.injEq, and_eq_true, beq_iff_eq,
        templateValueExprNodes_equal_iff nodes nodes']
      tauto
termination_by structural lhs

theorem templateValueExprNodes_equal_iff (lhs rhs : List TemplateValueExprNode) :
    templateValueExprNodesStructurallyEqual lhs rhs = true ↔
      templateValueExprNodesForm TemplateArgumentFields.comparedForm lhs =
        templateValueExprNodesForm TemplateArgumentFields.comparedForm rhs := by
  cases lhs with
  | nil =>
    cases rhs <;> simp [templateValueExprNodesStructurallyEqual, templateValueExprNodesForm]
  | cons first rest =>
    cases rhs with
    | nil => simp [templateValueExprNodesStructurallyEqual, templateValueExprNodesForm]
    | cons second others =>
      simp only [templateValueExprNodesStructurallyEqual, templateValueExprNodesForm,
        List.cons.injEq, and_eq_true, templateValueExprNode_equal_iff first second,
        templateValueExprNodes_equal_iff rest others]
termination_by structural lhs

theorem templateValueExprNode_equal_iff (lhs rhs : TemplateValueExprNode) :
    templateValueExprNodeStructurallyEqual lhs rhs = true ↔
      lhs.form TemplateArgumentFields.comparedForm =
        rhs.form TemplateArgumentFields.comparedForm := by
  cases lhs with
  | mk fields arguments =>
    cases rhs with
    | mk fields' arguments' =>
      simp only [templateValueExprNodeStructurallyEqual, TemplateValueExprNode.form,
        TemplateValueExprNode.mk.injEq, and_eq_true, nodeFields_equal_iff,
        templateArgumentLists_equal_iff arguments arguments']
termination_by structural lhs

end

theorem payloadFieldsEqual_index {lhs rhs : TypePayload}
    (equal : payloadFieldsEqual lhs rhs = true) : lhs.ctorIdx = rhs.ctorIdx := by
  unfold payloadFieldsEqual at equal
  split at equal
  case h_30 => exact absurd equal Bool.false_ne_true
  all_goals rfl

theorem payload_form_index (fieldsForm : TemplateArgumentFields → TemplateArgumentFields)
    (payload : TypePayload) : (payload.form fieldsForm).ctorIdx = payload.ctorIdx := by
  cases payload <;> rfl

theorem payload_form_ne (fieldsForm : TemplateArgumentFields → TemplateArgumentFields)
    {lhs rhs : TypePayload} (differ : lhs.ctorIdx ≠ rhs.ctorIdx) :
    lhs.form fieldsForm ≠ rhs.form fieldsForm := by
  intro equal
  have indices := congrArg TypePayload.ctorIdx equal
  rw [payload_form_index, payload_form_index] at indices
  exact differ indices

theorem payloadFields_equal_iff (lhs rhs : TypePayload) :
    payloadFieldsEqual lhs rhs = true ↔
      lhs.form TemplateArgumentFields.comparedForm =
        rhs.form TemplateArgumentFields.comparedForm := by
  by_cases sameIndex : lhs.ctorIdx = rhs.ctorIdx
  · cases lhs <;> refine payload_same_constructor rhs sameIndex (PULift.up ?_)
    all_goals
      intros
      simp only [payloadFieldsEqual, TypePayload.form, and_eq_true, beq_iff_eq,
        idsStructurallyEqual_iff, refsStructurallyEqual_iff, refLists_iff,
        templateValueExprs_equal_iff, templateArgumentLists_equal_iff]
    all_goals simp [BuiltinTypePayload.ext_iff, BitIntTypePayload.ext_iff]
    all_goals
      constructor
      · intro agree
        simp [agree]
      · intro agree
        simp [agree]
  · have differ := payload_form_ne TemplateArgumentFields.comparedForm sameIndex
    constructor
    · intro equal
      exact absurd (payloadFieldsEqual_index equal) sameIndex
    · intro equal
      exact absurd equal differ

theorem sameLink_iff {lhs rhs : TypeId} :
    sameLink lhs rhs = true ↔ handleForm lhs = handleForm rhs := by
  have validOfForm : ∀ {id : TypeId}, id.valid = true → id ≠ {} := by
    rintro id valid rfl
    simp [Handle.valid] at valid
  cases left : lhs.valid <;> cases right : rhs.valid
  · simp [sameLink, handleForm, left, right]
  · simpa [sameLink, handleForm, left, right] using (validOfForm right).symm
  · simpa [sameLink, handleForm, left, right] using validOfForm left
  · simp [sameLink, handleForm, left, right]

theorem typeSpecsEqual_iff {lhs rhs : TypeSpec} :
    typeSpecsEqual lhs rhs = true ↔
      lhs.form TemplateArgumentFields.comparedForm =
        rhs.form TemplateArgumentFields.comparedForm := by
  simp [typeSpecsEqual, TypeSpec.form, payloadFields_equal_iff, sameLink_iff, and_assoc]

variable {lhs rhs : TemplateValueExpression}

section Words

variable (stringHash : String → UInt64)

theorem refWords_form (ref : TypeRef) : refWords ref.form = refWords ref := by
  simp [refWords, TypeRef.form, structuralIdValue_handleForm]

theorem refWords_forms (refs : List TypeRef) :
    (refs.map TypeRef.form).flatMap refWords = refs.flatMap refWords := by
  simp [flatMap_map, refWords_form]

theorem packReferenceWords_form (reference : TemplateValuePackReference) :
    packReferenceWords reference.form = packReferenceWords reference := by
  simp [packReferenceWords, TemplateValuePackReference.form, structuralIdValue_handleForm]

theorem packReferenceWords_forms (references : List TemplateValuePackReference) :
    (references.map TemplateValuePackReference.form).flatMap packReferenceWords =
      references.flatMap packReferenceWords := by
  simp [flatMap_map, packReferenceWords_form]

theorem templateArgumentsForm_length
    (fieldsForm : TemplateArgumentFields → TemplateArgumentFields)
    (arguments : List TemplateArgument) :
    (templateArgumentsForm fieldsForm arguments).length = arguments.length := by
  induction arguments with
  | nil => rfl
  | cons argument rest ih =>
    simp [templateArgumentsForm, ih]

theorem templateValueExprNodesForm_length
    (fieldsForm : TemplateArgumentFields → TemplateArgumentFields)
    (nodes : List TemplateValueExprNode) :
    (templateValueExprNodesForm fieldsForm nodes).length = nodes.length := by
  induction nodes with
  | nil => rfl
  | cons node rest ih =>
    simp [templateValueExprNodesForm, ih]

mutual

theorem templateArgumentWords_form (argument : TemplateArgument) :
    templateArgumentWords stringHash (argument.form TemplateArgumentFields.comparedForm) =
      templateArgumentWords stringHash argument := by
  cases argument with
  | mk fields elements valueExpr countExpr alternative =>
    simp only [TemplateArgument.form, templateArgumentWords,
      templateArgumentListWords_form elements, templateValueExpressionWords_form valueExpr,
      templateValueExpressionWords_form countExpr, templateArgumentsForm_length]
    simp only [TemplateArgumentFields.comparedForm, TemplateArgumentFields.languageForm,
      refWords_form, structuralIdValue_handleForm]

theorem templateArgumentListWords_form (arguments : List TemplateArgument) :
    templateArgumentListWords stringHash
        (templateArgumentsForm TemplateArgumentFields.comparedForm arguments) =
      templateArgumentListWords stringHash arguments := by
  cases arguments with
  | nil => rfl
  | cons argument rest =>
    simp only [templateArgumentsForm, templateArgumentListWords,
      templateArgumentWords_form argument, templateArgumentListWords_form rest]

theorem templateValueExpressionWords_form (expression : TemplateValueExpression) :
    templateValueExpressionWords stringHash
        (expression.form TemplateArgumentFields.comparedForm) =
      templateValueExpressionWords stringHash expression := by
  cases expression with
  | mk nodes root canonicalId =>
    simp only [TemplateValueExpression.form, templateValueExpressionWords,
      templateValueExprNodesForm_length, templateValueExprNodesWords_form nodes]

theorem templateValueExprNodesWords_form (nodes : List TemplateValueExprNode) :
    templateValueExprNodesWords stringHash
        (templateValueExprNodesForm TemplateArgumentFields.comparedForm nodes) =
      templateValueExprNodesWords stringHash nodes := by
  cases nodes with
  | nil => rfl
  | cons node rest =>
    simp only [templateValueExprNodesForm, templateValueExprNodesWords,
      templateValueExprNodeWords_form node, templateValueExprNodesWords_form rest]

theorem templateValueExprNodeWords_form (node : TemplateValueExprNode) :
    templateValueExprNodeWords stringHash (node.form TemplateArgumentFields.comparedForm) =
      templateValueExprNodeWords stringHash node := by
  cases node with
  | mk fields arguments =>
    simp only [TemplateValueExprNode.form, templateValueExprNodeWords,
      templateArgumentListWords_form arguments, templateArgumentsForm_length,
      TemplateValueExprNodeFields.form, refWords_form, structuralIdValue_handleForm,
      packReferenceWords_forms, length_map]

end

theorem payloadWords_form (payload : TypePayload) :
    payloadWords stringHash (payload.form TemplateArgumentFields.comparedForm) =
      payloadWords stringHash payload := by
  cases payload <;>
    simp only [TypePayload.form, payloadWords, refWords_form, refWords_forms,
      structuralIdValue_handleForm, templateValueExpressionWords_form,
      templateArgumentListWords_form, templateArgumentsWords, templateArgumentsForm_length,
      length_map]

/-- Arguments that compare equal are hashed alike. -/
theorem hashTemplateArgument_congr {lhs rhs : TemplateArgument}
    (equal : templateArgumentsStructurallyEqual lhs rhs = true) (hash : UInt64) :
    hashTemplateArgument stringHash hash lhs = hashTemplateArgument stringHash hash rhs := by
  have forms := (templateArguments_equal_iff lhs rhs).mp equal
  rw [hashTemplateArgument, hashTemplateArgument, ← templateArgumentWords_form, forms,
    templateArgumentWords_form]

theorem templateValueExpressionStructuralHash_congr
    (equal : templateValueExprsStructurallyEqual lhs rhs = true) :
    templateValueExpressionStructuralHash stringHash lhs =
      templateValueExpressionStructuralHash stringHash rhs := by
  have forms := (templateValueExprs_equal_iff lhs rhs).mp equal
  rw [templateValueExpressionStructuralHash, templateValueExpressionStructuralHash,
    hashTemplateValueExpression, hashTemplateValueExpression,
    ← templateValueExpressionWords_form, forms, templateValueExpressionWords_form]

theorem hashPayload_congr {lhs rhs : TypePayload}
    (equal : payloadFieldsEqual lhs rhs = true) (hash : UInt64) :
    hashPayload stringHash hash lhs = hashPayload stringHash hash rhs := by
  have forms := (payloadFields_equal_iff lhs rhs).mp equal
  rw [hashPayload, hashPayload, ← payloadWords_form, forms, payloadWords_form]

theorem typeSpecHash_congr {lhs rhs : TypeSpec} (equal : typeSpecsEqual lhs rhs = true) :
    typeSpecHash stringHash lhs = typeSpecHash stringHash rhs := by
  simp only [typeSpecsEqual, and_eq_true, beq_iff_eq, sameLink_iff] at equal
  obtain ⟨⟨⟨⟨kinds, payloads⟩, canonical⟩, desugared⟩, resolved⟩ := equal
  have idValue : ∀ {first second : TypeId}, handleForm first = handleForm second →
      structuralIdValue first = structuralIdValue second := by
    intro first second forms
    rw [← structuralIdValue_handleForm, forms, structuralIdValue_handleForm]
  simp only [typeSpecHash, kinds, hashPayload_congr stringHash payloads, idValue canonical,
    idValue desugared, idValue resolved]

end Words

section Unread

theorem argumentFields_language_iff {lhs rhs : TemplateArgumentFields} :
    lhs.languageForm = rhs.languageForm ↔
      lhs.comparedForm = rhs.comparedForm ∧ lhs.unread = rhs.unread := by
  constructor
  · intro equal
    constructor
    · simp only [TemplateArgumentFields.comparedForm, equal]
    · simp only [TemplateArgumentFields.languageForm, TemplateArgumentFields.mk.injEq] at equal
      simp only [TemplateArgumentFields.unread, equal]
  · rintro ⟨compared, unread⟩
    simp only [TemplateArgumentFields.comparedForm, TemplateArgumentFields.languageForm,
      TemplateArgumentFields.mk.injEq] at compared
    simp only [TemplateArgumentFields.unread, UnreadFields.mk.injEq] at unread
    simp only [TemplateArgumentFields.languageForm, compared, unread]

/-- Walks of one length agree exactly when both of their parts do. -/
theorem append_eq_iff {α : Type} {first second first' second' : List α}
    (length : first.length = first'.length) :
    first ++ second = first' ++ second' ↔ first = first' ∧ second = second' := by
  constructor
  · intro equal
    exact append_inj equal length
  · rintro ⟨rfl, rfl⟩
    rfl

variable (fieldsForm : TemplateArgumentFields → TemplateArgumentFields)

mutual

theorem templateArgument_unread_length (argument : TemplateArgument) :
    (argument.form fieldsForm).unread.length = argument.unread.length := by
  cases argument with
  | mk fields elements valueExpr countExpr alternative =>
    simp only [TemplateArgument.form, TemplateArgument.unread, length_cons,
      length_append, templateArguments_unread_length elements,
      templateValueExpression_unread_length valueExpr,
      templateValueExpression_unread_length countExpr]

theorem templateArguments_unread_length (arguments : List TemplateArgument) :
    (templateArgumentsUnread (templateArgumentsForm fieldsForm arguments)).length =
      (templateArgumentsUnread arguments).length := by
  cases arguments with
  | nil => rfl
  | cons argument rest =>
    simp only [templateArgumentsForm, templateArgumentsUnread, length_append,
      templateArgument_unread_length argument, templateArguments_unread_length rest]

theorem templateValueExpression_unread_length (expression : TemplateValueExpression) :
    (expression.form fieldsForm).unread.length = expression.unread.length := by
  cases expression with
  | mk nodes root canonicalId =>
    simp only [TemplateValueExpression.form, TemplateValueExpression.unread,
      templateValueExprNodes_unread_length nodes]

theorem templateValueExprNodes_unread_length (nodes : List TemplateValueExprNode) :
    (templateValueExprNodesUnread (templateValueExprNodesForm fieldsForm nodes)).length =
      (templateValueExprNodesUnread nodes).length := by
  cases nodes with
  | nil => rfl
  | cons node rest =>
    simp only [templateValueExprNodesForm, templateValueExprNodesUnread,
      length_append, templateValueExprNode_unread_length node,
      templateValueExprNodes_unread_length rest]

theorem templateValueExprNode_unread_length (node : TemplateValueExprNode) :
    (node.form fieldsForm).unread.length = node.unread.length := by
  cases node with
  | mk fields arguments =>
    simp only [TemplateValueExprNode.form, TemplateValueExprNode.unread,
      templateArguments_unread_length arguments]

end

variable {fieldsForm}

theorem templateArgument_lengths {lhs rhs : TemplateArgument}
    (forms : lhs.form fieldsForm = rhs.form fieldsForm) :
    lhs.unread.length = rhs.unread.length := by
  rw [← templateArgument_unread_length fieldsForm, forms, templateArgument_unread_length]

theorem templateValueExpression_lengths (forms : lhs.form fieldsForm = rhs.form fieldsForm) :
    lhs.unread.length = rhs.unread.length := by
  rw [← templateValueExpression_unread_length fieldsForm, forms,
    templateValueExpression_unread_length]

theorem templateValueExprNode_lengths {lhs rhs : TemplateValueExprNode}
    (forms : lhs.form fieldsForm = rhs.form fieldsForm) :
    lhs.unread.length = rhs.unread.length := by
  rw [← templateValueExprNode_unread_length fieldsForm, forms,
    templateValueExprNode_unread_length]

mutual

theorem templateArgument_language_iff (lhs rhs : TemplateArgument) :
    lhs.form TemplateArgumentFields.languageForm = rhs.form TemplateArgumentFields.languageForm ↔
      lhs.form TemplateArgumentFields.comparedForm =
          rhs.form TemplateArgumentFields.comparedForm ∧
        lhs.unread = rhs.unread := by
  cases lhs with
  | mk fields elements valueExpr countExpr alternative =>
    cases rhs with
    | mk fields' elements' valueExpr' countExpr' alternative' =>
      simp only [TemplateArgument.form, TemplateArgument.unread, TemplateArgument.mk.injEq,
        argumentFields_language_iff, templateArguments_language_iff elements elements',
        templateValueExpression_language_iff valueExpr valueExpr',
        templateValueExpression_language_iff countExpr countExpr', List.cons.injEq]
      constructor
      · rintro ⟨⟨fieldsForm, fieldsUnread⟩, ⟨elementsForm, elementsUnread⟩,
          ⟨valueForm, valueUnread⟩, ⟨countForm, countUnread⟩, -⟩
        exact ⟨⟨fieldsForm, elementsForm, valueForm, countForm, trivial⟩, fieldsUnread, by
          rw [valueUnread, countUnread, elementsUnread]⟩
      · rintro ⟨⟨fieldsForm, elementsForm, valueForm, countForm, -⟩, fieldsUnread, unread⟩
        have valueLength := templateValueExpression_lengths valueForm
        have countLength := templateValueExpression_lengths countForm
        rw [append_eq_iff (by simp [valueLength, countLength]),
          append_eq_iff valueLength] at unread
        exact ⟨⟨fieldsForm, fieldsUnread⟩, ⟨elementsForm, unread.2⟩,
          ⟨valueForm, unread.1.1⟩, ⟨countForm, unread.1.2⟩, trivial⟩
termination_by structural lhs

theorem templateArguments_language_iff (lhs rhs : List TemplateArgument) :
    templateArgumentsForm TemplateArgumentFields.languageForm lhs =
        templateArgumentsForm TemplateArgumentFields.languageForm rhs ↔
      templateArgumentsForm TemplateArgumentFields.comparedForm lhs =
          templateArgumentsForm TemplateArgumentFields.comparedForm rhs ∧
        templateArgumentsUnread lhs = templateArgumentsUnread rhs := by
  cases lhs with
  | nil => cases rhs <;> simp [templateArgumentsForm, templateArgumentsUnread]
  | cons first rest =>
    cases rhs with
    | nil => simp [templateArgumentsForm]
    | cons second others =>
      simp only [templateArgumentsForm, templateArgumentsUnread, List.cons.injEq,
        templateArgument_language_iff first second,
        templateArguments_language_iff rest others]
      constructor
      · rintro ⟨⟨firstForm, firstUnread⟩, restForm, restUnread⟩
        exact ⟨⟨firstForm, restForm⟩, by rw [firstUnread, restUnread]⟩
      · rintro ⟨⟨firstForm, restForm⟩, unread⟩
        rw [append_eq_iff (templateArgument_lengths firstForm)] at unread
        exact ⟨⟨firstForm, unread.1⟩, restForm, unread.2⟩
termination_by structural lhs

theorem templateValueExpression_language_iff (lhs rhs : TemplateValueExpression) :
    lhs.form TemplateArgumentFields.languageForm = rhs.form TemplateArgumentFields.languageForm ↔
      lhs.form TemplateArgumentFields.comparedForm =
          rhs.form TemplateArgumentFields.comparedForm ∧
        lhs.unread = rhs.unread := by
  cases lhs with
  | mk nodes root canonicalId =>
    cases rhs with
    | mk nodes' root' canonicalId' =>
      simp only [TemplateValueExpression.form, TemplateValueExpression.unread,
        TemplateValueExpression.mk.injEq, templateValueExprNodes_language_iff nodes nodes']
      tauto
termination_by structural lhs

theorem templateValueExprNodes_language_iff (lhs rhs : List TemplateValueExprNode) :
    templateValueExprNodesForm TemplateArgumentFields.languageForm lhs =
        templateValueExprNodesForm TemplateArgumentFields.languageForm rhs ↔
      templateValueExprNodesForm TemplateArgumentFields.comparedForm lhs =
          templateValueExprNodesForm TemplateArgumentFields.comparedForm rhs ∧
        templateValueExprNodesUnread lhs = templateValueExprNodesUnread rhs := by
  cases lhs with
  | nil => cases rhs <;> simp [templateValueExprNodesForm, templateValueExprNodesUnread]
  | cons first rest =>
    cases rhs with
    | nil => simp [templateValueExprNodesForm]
    | cons second others =>
      simp only [templateValueExprNodesForm, templateValueExprNodesUnread, List.cons.injEq,
        templateValueExprNode_language_iff first second,
        templateValueExprNodes_language_iff rest others]
      constructor
      · rintro ⟨⟨firstForm, firstUnread⟩, restForm, restUnread⟩
        exact ⟨⟨firstForm, restForm⟩, by rw [firstUnread, restUnread]⟩
      · rintro ⟨⟨firstForm, restForm⟩, unread⟩
        rw [append_eq_iff (templateValueExprNode_lengths firstForm)] at unread
        exact ⟨⟨firstForm, unread.1⟩, restForm, unread.2⟩
termination_by structural lhs

theorem templateValueExprNode_language_iff (lhs rhs : TemplateValueExprNode) :
    lhs.form TemplateArgumentFields.languageForm = rhs.form TemplateArgumentFields.languageForm ↔
      lhs.form TemplateArgumentFields.comparedForm =
          rhs.form TemplateArgumentFields.comparedForm ∧
        lhs.unread = rhs.unread := by
  cases lhs with
  | mk fields arguments =>
    cases rhs with
    | mk fields' arguments' =>
      simp only [TemplateValueExprNode.form, TemplateValueExprNode.unread,
        TemplateValueExprNode.mk.injEq, templateArguments_language_iff arguments arguments']
      tauto
termination_by structural lhs

end

theorem payload_language_iff (lhs rhs : TypePayload) :
    lhs.form TemplateArgumentFields.languageForm = rhs.form TemplateArgumentFields.languageForm ↔
      lhs.form TemplateArgumentFields.comparedForm =
          rhs.form TemplateArgumentFields.comparedForm ∧
        lhs.unread = rhs.unread := by
  by_cases sameIndex : lhs.ctorIdx = rhs.ctorIdx
  · cases lhs <;> refine payload_same_constructor rhs sameIndex (PULift.up ?_)
    case templateSpecialization value =>
      intro value'
      simp only [TypePayload.form, TypePayload.unread, TypePayload.templateSpecialization.injEq,
        TemplateSpecializationTypePayload.mk.injEq, templateValueExpression_language_iff,
        templateArguments_language_iff]
      constructor
      · rintro ⟨name, primary, ⟨argumentsForm, argumentsUnread⟩, ⟨operandForm, operandUnread⟩,
          flags⟩
        exact ⟨⟨name, primary, argumentsForm, operandForm, flags⟩, by
          rw [operandUnread, argumentsUnread]⟩
      · rintro ⟨⟨name, primary, argumentsForm, operandForm, flags⟩, unread⟩
        rw [append_eq_iff (templateValueExpression_lengths operandForm)] at unread
        exact ⟨name, primary, ⟨argumentsForm, unread.2⟩, ⟨operandForm, unread.1⟩, flags⟩
    all_goals
      intros
      simp [TypePayload.form, TypePayload.unread, templateValueExpression_language_iff,
        templateArguments_language_iff]
    all_goals
      constructor
      · intro agree
        simp [agree]
      · intro agree
        simp [agree]
  · have differ := payload_form_ne TemplateArgumentFields.languageForm sameIndex
    have differ' := payload_form_ne TemplateArgumentFields.comparedForm sameIndex
    simp [differ, differ']

end Unread

/-- The comparison and the unread fields together decide which type it is. -/
theorem sameType_iff {lhs rhs : TypeSpec} :
    SameType lhs rhs ↔
      typeSpecsEqual lhs rhs = true ∧ lhs.payload.unread = rhs.payload.unread := by
  rw [typeSpecsEqual_iff, SameType]
  simp only [TypeSpec.form, TypeSpec.mk.injEq, payload_language_iff]
  tauto

theorem sameValueExpression_iff :
    SameValueExpression lhs rhs ↔
      templateValueExprsStructurallyEqual lhs rhs = true ∧ lhs.unread = rhs.unread := by
  rw [templateValueExprs_equal_iff]
  exact templateValueExpression_language_iff lhs rhs

end Aburi.Cir
