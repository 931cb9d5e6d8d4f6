import Aburi.Collect.TemplateEquivalence
import Mathlib.Data.List.Forall2

/-!
# Equivalence of template arguments

Types, value expressions and recipes of arguments are compared by equivalence
relations.  Template arguments are compared by one where the arguments in the
middle know the types of their values.
-/

namespace Aburi.Collect

open Aburi.Cir Bool

/-- A test that decides an equivalence relation. -/
abbrev Decides {α : Type} (test : α → α → Bool) : Prop :=
  Equivalence fun a b => test a b = true

/-- Two items that are both equivalent to a third one are equivalent. -/
theorem Decides.of_euclid {α : Type} {test : α → α → Bool} (refl : ∀ a, test a a = true)
    (euclid : ∀ {a b c}, test a b = true → test c b = true → test a c = true) : Decides test :=
  ⟨refl, euclid (refl _), fun left right => euclid left (euclid (refl _) right)⟩

theorem Decides.euclid {α : Type} {test : α → α → Bool} (decides : Decides test) {a b c : α}
    (left : test a b = true) (right : test c b = true) : test a c = true :=
  decides.trans left (decides.symm right)

theorem listsEqual_iff {α : Type} {test : α → α → Bool} {left right : List α} :
    listsEqual test left right = true ↔ List.Forall₂ (fun a b => test a b = true) left right := by
  induction left generalizing right with
  | nil => cases right <;> simp [listsEqual]
  | cons first rest ih => cases right <;> simp [listsEqual, ih]

theorem Decides.lists {α : Type} {test : α → α → Bool} (decides : Decides test) :
    Decides (listsEqual test) := by
  constructor
  · intro items
    induction items with
    | nil => rfl
    | cons first rest ih => simpa [listsEqual, decides.refl first] using ih
  · intro left right equal
    rw [listsEqual_iff] at equal ⊢
    exact equal.flip.imp fun _ _ => decides.symm
  · intro left middle right first second
    rw [listsEqual_iff] at first second ⊢
    induction first generalizing right with
    | nil => exact second
    | cons head _ ih =>
      cases second with
      | cons head' rest' => exact .cons (decides.trans head head') (ih rest')

/-- A test that decides an equivalence relation on a domain. -/
structure DecidesOn {α : Type} (domain : α → Prop) (test : α → α → Bool) : Prop where
  refl : ∀ a, domain a → test a a = true
  symm : ∀ {a b}, test a b = true → test b a = true
  trans : ∀ {a b c}, domain b → test a b = true → test b c = true → test a c = true

section Tests

variable {α β κ : Type} {domain : α → Prop} {test : α → α → Bool} {inner : κ → α → α → Bool}

theorem DecidesOn.decides (decides : DecidesOn (fun _ => True) test) : Decides test :=
  ⟨fun a => decides.refl a trivial, decides.symm, decides.trans trivial⟩

theorem Decides.comap {test : β → β → Bool} (decides : Decides test) (field : α → β) :
    DecidesOn domain fun a b => test (field a) (field b) :=
  ⟨fun _ _ => decides.refl _, decides.symm, fun _ => decides.trans⟩

theorem DecidesOn.field [BEq β] [LawfulBEq β] (field : α → β) :
    DecidesOn domain fun a b => field a == field b := by
  constructor
  · intro a _
    exact beq_self_eq_true _
  · intro a b equal
    rw [beq_iff_eq] at equal ⊢
    exact equal.symm
  · intro a b c _ first second
    rw [beq_iff_eq] at first second ⊢
    exact first.trans second

theorem DecidesOn.and {first second : α → α → Bool} (one : DecidesOn domain first)
    (other : DecidesOn domain second) : DecidesOn domain fun a b => first a b && second a b := by
  constructor
  · intro a inside
    rw [one.refl a inside, other.refl a inside, Bool.and_true]
  · intro a b equal
    rw [and_eq_true] at equal ⊢
    exact ⟨one.symm equal.1, other.symm equal.2⟩
  · intro a b c inside left right
    rw [and_eq_true] at left right ⊢
    exact ⟨one.trans inside left.1 right.1, other.trans inside left.2 right.2⟩

theorem DecidesOn.skip (skip : Bool) (decides : DecidesOn domain test) :
    DecidesOn domain fun a b => skip || test a b := by
  cases skip with
  | true => exact ⟨fun _ _ => rfl, fun _ => rfl, fun _ _ _ => rfl⟩
  | false => exact decides

/-- A test that compares a key, and among the items of each key is another one. -/
theorem DecidesOn.of_classes (key : α → κ) (implies : ∀ {a b}, test a b = true → key a = key b)
    (same : ∀ k a b, key a = k → key b = k → test a b = inner k a b)
    (decides : ∀ k, DecidesOn (fun a => domain a ∧ key a = k) (inner k)) :
    DecidesOn domain test := by
  constructor
  · intro a inside
    rw [same _ a a rfl rfl]
    exact (decides _).refl a ⟨inside, rfl⟩
  · intro a b equal
    have keys := implies equal
    rw [same _ a b rfl keys.symm] at equal
    rw [same _ b a keys.symm rfl]
    exact (decides _).symm equal
  · intro a b c inside left right
    have keys := implies left
    have keys' := keys.trans (implies right)
    rw [same _ a b rfl keys.symm] at left
    rw [same _ b c keys.symm keys'.symm] at right
    rw [same _ a c rfl keys'.symm]
    exact (decides _).trans ⟨inside, keys.symm⟩ left right

end Tests

section Recipes

-- not every theorem of a group that is proved at once compares types itself
set_option linter.unusedSectionVars false

variable {refsEqual : TypeRef → TypeRef → Bool} (refs : Decides refsEqual)

include refs

theorem packReferences_decides : Decides (packReferencesEquivalent refsEqual) := by
  apply DecidesOn.decides
  unfold packReferencesEquivalent
  repeat' first
    | exact .field _
    | exact refs.comap _
    | apply DecidesOn.and

theorem nodeFields_decides : Decides (nodeFieldsEquivalent refsEqual) := by
  have lists := (packReferences_decides refs).lists
  apply DecidesOn.decides
  apply DecidesOn.of_classes fun fields => fields.kind
  · intro a b equal
    simp only [nodeFieldsEquivalent, and_eq_true, beq_iff_eq] at equal
    grind
  · intro kind a b isKind isKind'
    rw [nodeFieldsEquivalent, isKind, isKind']
  · intro kind
    repeat' first
      | exact .field _
      | exact refs.comap _
      | exact lists.comap _
      | apply DecidesOn.and
      | apply DecidesOn.skip

omit refs in
theorem recipeFields_kind {a b : TemplateArgumentFields}
    (equal : recipeFieldsEquivalent refsEqual a b = true) : a.kind = b.kind := by
  simp only [recipeFieldsEquivalent, and_eq_true, beq_iff_eq] at equal
  exact equal.1.1.1.1.1

theorem recipeFields_decides : Decides (recipeFieldsEquivalent refsEqual) := by
  apply DecidesOn.decides
  apply DecidesOn.of_classes (fun fields => fields.kind) recipeFields_kind
  · intro kind a b isKind isKind'
    rw [recipeFieldsEquivalent, isKind, isKind']
  intro kind
  apply DecidesOn.and
  · repeat' first
      | exact .field _
      | exact refs.comap _
      | apply DecidesOn.and
  cases kind with
  | type => exact (DecidesOn.field _).and (refs.comap _)
  | value =>
    apply DecidesOn.of_classes fun fields => fields.valueParamIndex
    · intro a b equal
      simp only [and_eq_true, beq_iff_eq] at equal
      exact equal.1.1.1.2
    · intro index a b isIndex isIndex'
      rw [isIndex, isIndex']
    · intro index
      apply DecidesOn.of_classes fun fields => fields.valueKind
      · intro a b equal
        simp only [and_eq_true, beq_iff_eq] at equal
        exact equal.1.1.1.1.1.1.1.1.1.1.2
      · intro kind a b isKind isKind'
        rw [isKind, isKind']
      · intro kind
        repeat' first
          | exact .field _
          | exact refs.comap _
          | apply DecidesOn.and
          | apply DecidesOn.skip
  | template =>
    apply DecidesOn.of_classes fun fields => fields.templateParamIndex
    · intro a b equal
      simp only [and_eq_true, beq_iff_eq] at equal
      exact equal.1.1.1
    · intro index a b isIndex isIndex'
      rw [isIndex, isIndex']
    · intro index
      repeat' first
        | exact .field _
        | exact refs.comap _
        | apply DecidesOn.and
        | apply DecidesOn.skip

mutual

theorem recipe_refl :
    ∀ argument, templateArgumentRecipeEquivalent refsEqual argument argument = true
  | .mk fields elements valueExpr countExpr _ => by
      simp [templateArgumentRecipeEquivalent, (recipeFields_decides refs).refl fields,
        exprs_refl valueExpr, exprs_refl countExpr, recipes_refl elements]

theorem recipes_refl :
    ∀ arguments, templateArgumentRecipesEquivalent refsEqual arguments arguments = true
  | [] => rfl
  | argument :: rest => by
      simp [templateArgumentRecipesEquivalent, recipe_refl argument, recipes_refl rest]

theorem exprs_refl :
    ∀ expression, templateValueExprsEquivalent refsEqual expression expression = true
  | .mk nodes _ _ => by simp [templateValueExprsEquivalent, nodeLists_refl nodes]

theorem nodeLists_refl :
    ∀ nodes, templateValueExprNodeListsEquivalent refsEqual nodes nodes = true
  | [] => rfl
  | node :: rest => by
      simp [templateValueExprNodeListsEquivalent, nodes_refl node, nodeLists_refl rest]

theorem nodes_refl : ∀ node, templateValueExprNodesEquivalent refsEqual node node = true
  | .mk fields arguments => by
      simp [templateValueExprNodesEquivalent, (nodeFields_decides refs).refl fields,
        recipes_refl arguments]

end

mutual

theorem recipe_euclid : ∀ {first second third},
    templateArgumentRecipeEquivalent refsEqual first second = true →
      templateArgumentRecipeEquivalent refsEqual third second = true →
        templateArgumentRecipeEquivalent refsEqual first third = true
  | .mk _ _ _ _ _, .mk _ _ _ _ _, .mk _ _ _ _ _, left, right => by
      simp only [templateArgumentRecipeEquivalent, and_eq_true, or_eq_true]
        at left right ⊢
      obtain ⟨⟨sameFields, sameCount⟩, others⟩ := left
      obtain ⟨⟨sameFields', sameCount'⟩, others'⟩ := right
      refine ⟨⟨(recipeFields_decides refs).euclid sameFields sameFields',
        exprs_euclid sameCount sameCount'⟩, ?_⟩
      rw [← (recipeFields_kind sameFields).trans (recipeFields_kind sameFields').symm] at others'
      rcases others with skipped | same
      · exact .inl skipped
      · exact others'.imp_right fun same' =>
          ⟨exprs_euclid same.1 same'.1, recipes_euclid same.2 same'.2⟩
termination_by structural first => first

theorem recipes_euclid : ∀ {first second third},
    templateArgumentRecipesEquivalent refsEqual first second = true →
      templateArgumentRecipesEquivalent refsEqual third second = true →
        templateArgumentRecipesEquivalent refsEqual first third = true
  | [], [], [], _, _ => rfl
  | _ :: _, _ :: _, _ :: _, left, right => by
      simp only [templateArgumentRecipesEquivalent, and_eq_true] at left right ⊢
      exact ⟨recipe_euclid left.1 right.1, recipes_euclid left.2 right.2⟩
termination_by structural first => first

theorem exprs_euclid : ∀ {first second third},
    templateValueExprsEquivalent refsEqual first second = true →
      templateValueExprsEquivalent refsEqual third second = true →
        templateValueExprsEquivalent refsEqual first third = true
  | .mk _ _ _, .mk _ _ _, .mk _ _ _, left, right => by
      simp only [templateValueExprsEquivalent, and_eq_true, beq_iff_eq] at left right ⊢
      exact ⟨left.1.trans right.1.symm, nodeLists_euclid left.2 right.2⟩
termination_by structural first => first

theorem nodeLists_euclid : ∀ {first second third},
    templateValueExprNodeListsEquivalent refsEqual first second = true →
      templateValueExprNodeListsEquivalent refsEqual third second = true →
        templateValueExprNodeListsEquivalent refsEqual first third = true
  | [], [], [], _, _ => rfl
  | _ :: _, _ :: _, _ :: _, left, right => by
      simp only [templateValueExprNodeListsEquivalent, and_eq_true] at left right ⊢
      exact ⟨nodes_euclid left.1 right.1, nodeLists_euclid left.2 right.2⟩
termination_by structural first => first

theorem nodes_euclid : ∀ {first second third},
    templateValueExprNodesEquivalent refsEqual first second = true →
      templateValueExprNodesEquivalent refsEqual third second = true →
        templateValueExprNodesEquivalent refsEqual first third = true
  | .mk _ _, .mk _ _, .mk _ _, left, right => by
      simp only [templateValueExprNodesEquivalent, and_eq_true] at left right ⊢
      exact ⟨recipes_euclid left.1 right.1, (nodeFields_decides refs).euclid left.2 right.2⟩
termination_by structural first => first

end

theorem recipes_decides : Decides (templateArgumentRecipesEquivalent refsEqual) :=
  .of_euclid (recipes_refl refs) (recipes_euclid refs)

theorem exprs_decides : Decides (templateValueExprsEquivalent refsEqual) :=
  .of_euclid (exprs_refl refs) (exprs_euclid refs)

theorem bindings_decides : Decides (templateArgumentBindingsEquivalent refsEqual) := by
  have recipes := recipes_decides refs
  apply Decides.lists
  apply DecidesOn.decides
  unfold bindingsEquivalent
  exact (DecidesOn.field _).and (recipes.comap _)

theorem specializationFacts_decides : Decides (specializationFactsEquivalent refsEqual) := by
  have recipes := recipes_decides refs
  have bindings := bindings_decides refs
  -- lists of bindings are equivalent only when both are empty or neither is
  have sameEmpty : ∀ {a b}, templateArgumentBindingsEquivalent refsEqual a b = true →
      a.isEmpty = b.isEmpty := by
    intro a b equal
    cases listsEqual_iff.1 equal <;> rfl
  constructor
  · intro a
    simp [specializationFactsEquivalent, recipes.refl _, bindings.refl _]
  · intro a b equal
    have symm := @recipes.symm
    have bindingsSymm := @bindings.symm
    grind [specializationFactsEquivalent]
  · intro a b c left right
    have trans := @recipes.trans
    have bindingsTrans := @bindings.trans
    grind [specializationFactsEquivalent]

omit refs in
theorem payloads_index {kind : TypeKind} {a b : TypePayload}
    (equal : payloadsEquivalent refsEqual kind a b = true) : a.ctorIdx = b.ctorIdx := by
  unfold payloadsEquivalent at equal
  split at equal
  case h_8 => cases equal
  all_goals rfl

theorem payloads_symm {kind : TypeKind} {a b : TypePayload}
    (equal : payloadsEquivalent refsEqual kind a b = true) :
    payloadsEquivalent refsEqual kind b a = true := by
  have symm := @refs.symm
  have recipes := @(recipes_decides refs).symm
  have exprs := @(exprs_decides refs).symm
  have lists := @(Decides.lists refs).symm
  have index := payloads_index equal
  revert equal
  cases a <;> refine payload_same_constructor b index (PULift.up ?_) <;> intros
  all_goals
    beta_reduce
    intros
    rename_i equal
    first | cases equal | grind [payloadsEquivalent]

theorem payloads_euclid {kind : TypeKind} {a b c : TypePayload}
    (left : payloadsEquivalent refsEqual kind a b = true)
    (right : payloadsEquivalent refsEqual kind c b = true) :
    payloadsEquivalent refsEqual kind a c = true := by
  have euclid := @refs.euclid
  have recipes := @recipes_euclid _ refs
  have exprs := @exprs_euclid _ refs
  have lists := @(Decides.lists refs).euclid
  have index := payloads_index left
  have index' := (payloads_index right).symm
  revert left right index'
  cases a <;> refine payload_same_constructor b index (PULift.up ?_) <;> intros
  all_goals
    beta_reduce
    intros
    rename_i left right index'
    first | cases left | revert right
  all_goals
    refine payload_same_constructor c index' (PULift.up ?_)
    grind [payloadsEquivalent]

theorem typesOfKind_symm {view : TemplateFile} {kind : TypeKind} {l r : TypeId}
    (equal : typesOfKindEquivalent refsEqual view kind l r = true) :
    typesOfKindEquivalent refsEqual view kind r l = true := by
  cases kind with
  | lvalueReference | rvalueReference => exact refs.symm equal
  | record =>
    have facts := @(specializationFacts_decides refs).symm
    simp only [typesOfKindEquivalent] at equal ⊢
    grind
  | _ => exact payloads_symm refs equal

theorem typesOfKind_euclid {view : TemplateFile} {kind : TypeKind} {a b c : TypeId}
    (left : typesOfKindEquivalent refsEqual view kind a b = true)
    (right : typesOfKindEquivalent refsEqual view kind c b = true) :
    typesOfKindEquivalent refsEqual view kind a c = true := by
  cases kind with
  | lvalueReference | rvalueReference => exact refs.euclid left right
  | record =>
    have facts := @(specializationFacts_decides refs).euclid
    simp only [typesOfKindEquivalent] at left right ⊢
    grind
  | _ => exact payloads_euclid refs left right

theorem resolvedTypes_decides (view : TemplateFile) :
    Decides (resolvedTypesEquivalent view refsEqual) := by
  apply Decides.of_euclid
  · intro l
    simp [resolvedTypesEquivalent]
  · intro a b c left right
    have symm := @typesOfKind_symm _ refs view
    have euclid := @typesOfKind_euclid _ refs view
    grind [resolvedTypesEquivalent]

end Recipes

/-- Types are compared by an equivalence, however many levels are followed. -/
theorem templateTypeRefs_decides (view : TemplateFile) (levels : ℕ) :
    Decides (templateTypeRefsEquivalent view levels) := by
  induction levels with
  | zero =>
    apply DecidesOn.decides
    exact ((DecidesOn.field _).and (.field _)).and
      (.field fun ref => view.resolvedType (TypeRef.type ref))
  | succ levels ih =>
    apply DecidesOn.decides
    exact ((DecidesOn.field _).and (.field _)).and
      ((resolvedTypes_decides ih view).comap fun ref => view.resolvedType (TypeRef.type ref))

theorem DecidesOn.lists {α : Type} {domain : α → Prop} {test : α → α → Bool}
    (decides : DecidesOn domain test) :
    DecidesOn (fun items => ∀ item ∈ items, domain item) (listsEqual test) := by
  constructor
  · intro items inDomain
    induction items with
    | nil => rfl
    | cons first rest ih =>
      rw [listsEqual, decides.refl first (inDomain first (.head _)), Bool.true_and]
      exact ih fun item mem => inDomain item (.tail _ mem)
  · intro left right equal
    rw [listsEqual_iff] at equal ⊢
    exact equal.flip.imp fun _ _ => decides.symm
  · intro left middle right inDomain first second
    rw [listsEqual_iff] at first second ⊢
    induction first generalizing right with
    | nil => exact second
    | cons head _ ih =>
      cases second with
      | cons head' rest' =>
        refine .cons (decides.trans (inDomain _ (.head _)) head head') (ih ?_ rest')
        exact fun item mem => inDomain item (.tail _ mem)

mutual

/-- A value with its type, whose elements are such values. -/
def valueIsTyped : TemplateArgument → Bool
  | .mk fields elements _ _ _ =>
    fields.kind == .value && fields.valueType.type.valid && elementsAreTyped elements

def elementsAreTyped : List TemplateArgument → Bool
  | [] => true
  | element :: rest => valueIsTyped element && elementsAreTyped rest

end

def argumentIsTyped (argument : TemplateArgument) : Bool :=
  (templateArgumentFields argument).kind != .value || valueIsTyped argument

section Arguments

set_option linter.unusedSectionVars false

variable {refsEqual : TypeRef → TypeRef → Bool} (refs : Decides refsEqual)

include refs

/-- Of values that have a type. -/
theorem valueFields_decides :
    DecidesOn (fun fields => fields.kind = .value ∧ fields.valueType.type.valid = true)
      (valueFieldsEquivalent refsEqual) := by
  apply DecidesOn.of_classes fun fields => fields.valueKind
  · intro a b equal
    simp only [valueFieldsEquivalent, and_eq_true, beq_iff_eq] at equal
    grind
  · intro kind a b isKind isKind'
    rw [valueFieldsEquivalent, isKind, isKind']
  intro kind
  have kinds : DecidesOn (fun fields : TemplateArgumentFields =>
      (fields.kind = .value ∧ fields.valueType.type.valid = true) ∧ fields.valueKind = kind)
      fun a b => a.kind == .value && b.kind == .value := by
    constructor
    · intro a typed
      rw [typed.1.1]
      rfl
    · intro a b equal
      rw [Bool.and_comm]
      exact equal
    · intro a b c _ left right
      rw [and_eq_true] at left right ⊢
      exact ⟨left.1, right.2⟩
  have types : DecidesOn (fun fields : TemplateArgumentFields =>
      (fields.kind = .value ∧ fields.valueType.type.valid = true) ∧ fields.valueKind = kind)
      fun a b => !(a.valueType.type.valid && b.valueType.type.valid) ||
        refsEqual a.valueType b.valueType := by
    constructor
    · intro a _
      rw [refs.refl, Bool.or_true]
    · intro a b equal
      rw [or_eq_true] at equal ⊢
      rw [Bool.and_comm]
      exact equal.imp_right refs.symm
    · intro a b c typed left right
      rw [typed.1.2, or_eq_true] at left right
      rw [Bool.and_true] at left
      rw [Bool.true_and] at right
      rw [or_eq_true, Bool.not_and, or_eq_true]
      rcases left with unknown | same
      · exact .inl (.inl unknown)
      rcases right with unknown | same'
      · exact .inl (.inr unknown)
      · exact .inr (refs.trans same same')
  repeat' first
    | exact kinds
    | exact types
    | exact .field _
    | exact refs.comap _
    | apply DecidesOn.and
    | apply DecidesOn.skip

mutual

theorem value_refl : ∀ argument, valueIsTyped argument = true →
    templateValueArgumentsEquivalent refsEqual argument argument = true
  | .mk fields elements valueExpr countExpr _, typed => by
      simp only [valueIsTyped, and_eq_true, beq_iff_eq] at typed
      rw [templateValueArgumentsEquivalent, (valueFields_decides refs).refl fields typed.1,
        exprs_refl refs valueExpr, exprs_refl refs countExpr, elements_refl elements typed.2]
      rfl

theorem elements_refl : ∀ elements, elementsAreTyped elements = true →
    templateValueElementsEquivalent refsEqual elements elements = true
  | [], _ => rfl
  | element :: rest, typed => by
      rw [elementsAreTyped, and_eq_true] at typed
      rw [templateValueElementsEquivalent, value_refl element typed.1, elements_refl rest typed.2]
      rfl

end

mutual

theorem value_symm : ∀ {lhs rhs},
    templateValueArgumentsEquivalent refsEqual lhs rhs = true →
      templateValueArgumentsEquivalent refsEqual rhs lhs = true
  | .mk _ _ _ _ _, .mk _ _ _ _ _, equal => by
      simp only [templateValueArgumentsEquivalent, and_eq_true] at equal ⊢
      obtain ⟨⟨⟨sameFields, sameValue⟩, sameCount⟩, sameElements⟩ := equal
      exact ⟨⟨⟨(valueFields_decides refs).symm sameFields, (exprs_decides refs).symm sameValue⟩,
        (exprs_decides refs).symm sameCount⟩, elements_symm sameElements⟩
termination_by structural lhs => lhs

theorem elements_symm : ∀ {lhs rhs},
    templateValueElementsEquivalent refsEqual lhs rhs = true →
      templateValueElementsEquivalent refsEqual rhs lhs = true
  | [], [], _ => rfl
  | _ :: _, _ :: _, equal => by
      simp only [templateValueElementsEquivalent, and_eq_true] at equal ⊢
      exact ⟨value_symm equal.1, elements_symm equal.2⟩
termination_by structural lhs => lhs

end

mutual

theorem value_trans : ∀ {first second third}, valueIsTyped second = true →
    templateValueArgumentsEquivalent refsEqual first second = true →
      templateValueArgumentsEquivalent refsEqual second third = true →
        templateValueArgumentsEquivalent refsEqual first third = true
  | .mk _ _ _ _ _, .mk _ _ _ _ _, .mk _ _ _ _ _, typed, left, right => by
      simp only [templateValueArgumentsEquivalent, valueIsTyped, and_eq_true, beq_iff_eq]
        at left right typed ⊢
      obtain ⟨⟨⟨sameFields, sameValue⟩, sameCount⟩, sameElements⟩ := left
      obtain ⟨⟨⟨sameFields', sameValue'⟩, sameCount'⟩, sameElements'⟩ := right
      exact ⟨⟨⟨(valueFields_decides refs).trans typed.1 sameFields sameFields',
        (exprs_decides refs).trans sameValue sameValue'⟩,
        (exprs_decides refs).trans sameCount sameCount'⟩,
        elements_trans typed.2 sameElements sameElements'⟩
termination_by structural first => first

theorem elements_trans : ∀ {first second third}, elementsAreTyped second = true →
    templateValueElementsEquivalent refsEqual first second = true →
      templateValueElementsEquivalent refsEqual second third = true →
        templateValueElementsEquivalent refsEqual first third = true
  | [], [], [], _, _, _ => rfl
  | _ :: _, _ :: _, _ :: _, typed, left, right => by
      rw [elementsAreTyped, and_eq_true] at typed
      simp only [templateValueElementsEquivalent, and_eq_true] at left right ⊢
      exact ⟨value_trans typed.1 left.1 right.1, elements_trans typed.2 left.2 right.2⟩
termination_by structural first => first

end

theorem arguments_decides :
    DecidesOn (fun argument => argumentIsTyped argument = true)
      (templateArgumentsEquivalent refsEqual) := by
  apply DecidesOn.of_classes fun argument => (templateArgumentFields argument).kind
  · intro a b equal
    simp only [templateArgumentsEquivalent, and_eq_true, beq_iff_eq] at equal
    exact equal.1.1
  · intro kind a b isKind isKind'
    rw [templateArgumentsEquivalent, isKind, isKind']
  intro kind
  apply DecidesOn.and
  · exact (DecidesOn.field _).and (.field _)
  cases kind with
  | type => exact (DecidesOn.field _).and (refs.comap _)
  | value =>
    have typed : ∀ {argument}, argumentIsTyped argument = true ∧
        (templateArgumentFields argument).kind = .value → valueIsTyped argument = true := by
      rintro argument ⟨typed, isValue⟩
      rw [argumentIsTyped, isValue] at typed
      exact typed
    exact ⟨fun a inside => value_refl refs a (typed inside), value_symm refs,
      fun inside => value_trans refs (typed inside)⟩
  | template =>
    repeat' first
      | exact .field _
      | exact refs.comap _
      | apply DecidesOn.and

end Arguments

end Aburi.Collect
