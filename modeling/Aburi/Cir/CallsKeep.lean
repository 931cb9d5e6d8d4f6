import Aburi.Cir.FileKeeps

/-!
# The calls between the transactions keep what they restore

Three calls do so under a condition only.  `add_using_directive` resizes the list of
origins when it is taken back, so that the context must have had one origin for each
directive; `retype_entity_places` writes instructions without a note, and `record_facts`
hands out facts to write to without one.
-/

namespace Aburi.Cir.Full

open Aburi.Lib List

variable {contents : Contents} {file : File contents}

theorem declContext_stored {id : DeclContextId} (valid : file.valid .declContexts id = true) :
    (file.graph.rows .declContexts)[id.index.toNat]? = some (file.declContext id) := by
  have inside := (Generations.live_iff.mp valid).2.1
  have stored : (file.graph.rows .declContexts)[id.index.toNat]? = some _ :=
    getElem?_eq_getElem inside
  rw [File.declContext, if_pos valid, stored]
  rfl

variable {Element : Type}

theorem foldl_keeps {step : File contents → Element → File contents}
    (keeps : ∀ (file : File contents) element, file.Keeps (step file element))
    (elements : List Element) (file : File contents) : file.Keeps (elements.foldl step file) := by
  induction elements generalizing file with
  | nil => exact .refl file
  | cons element rest ih =>
    exact (keeps file element).trans (ih (step file element))

variable {list : List Element}

section Contexts

theorem assignDeclContextIndex_keeps (file : File contents) (id : DeclContextId)
    (kind : DeclContextIndexKind) (key : UInt64) (binding : BindingId) :
    file.Keeps (file.assignDeclContextIndex id kind key binding) := by
  rw [File.assignDeclContextIndex]
  split
  case isTrue valid =>
    apply changeDeclContext_keeps valid (declContext_stored valid)
    intro _
    simp [undoChange]
  case isFalse => exact .refl file

theorem addDeclContext_keeps (file : File contents) (context : DeclContext) :
    file.Keeps (file.addDeclContext context).2 := by
  rw [File.addDeclContext]
  have added := addRecord_keeps file .declContexts context
  revert added
  generalize file.addRecord .declContexts context = record
  intro added
  split
  case isTrue valid =>
    apply added.trans
    apply changeDeclContext_keeps valid (declContext_stored valid)
    intro _
    simp [undoChange]
  case isFalse => exact added

/-- If the directive is noted, the context has one origin for each directive. -/
def File.OriginsComplete (file : File contents) (context : DeclContextId) : Prop :=
  file.journalsDeclContext context = true →
    (file.declContext context).usingDirectiveOrigins.length =
      (file.declContext context).usingDirectives.length

theorem resize_succ (filler : Element) {size : ℕ} (length : list.length = size) :
    resize filler (size + 1) list = list ++ [filler] := by
  subst length
  simp [resize]

theorem resize_append (filler : Element) {size : ℕ} {more : List Element}
    (length : list.length = size) : resize filler size (list ++ more) = list := by
  subst length
  simp [resize]

theorem addUsingDirective_keeps {context : DeclContextId}
    (complete : file.OriginsComplete context) (target : DeclContextId) :
    file.Keeps (file.addUsingDirective context target) := by
  rw [File.addUsingDirective]
  split
  case isTrue added =>
    apply changeDeclContext_keeps added.1 (declContext_stored added.1)
    intro journals
    have length := complete journals
    revert length
    generalize file.declContext context = record
    intro length
    have grown : resize {} (record.usingDirectives.length + 1) record.usingDirectiveOrigins =
        record.usingDirectiveOrigins ++ [({} : ModuleAttachmentId)] := resize_succ _ length
    simp only [undoChange, dropLast_concat, length_append, length_singleton,
      grown, resize_append _ length]
  case isFalse => exact .refl file

end Contexts

section Bindings

theorem addBinding_keeps (file : File contents) (binding : Record contents .bindings) :
    file.Keeps (file.addBinding binding).2 := by
  rw [File.addBinding]
  split
  · exact .refl file
  · have added := addRecord_keeps file .bindings binding
    revert added
    generalize file.addRecord .bindings binding = record
    intro added
    simp only
    split
    case isTrue valid =>
      apply added.trans
      have appended : record.2.Keeps (record.2.changeDeclContext binding.context
          .bindingAppended fun context =>
            { context with bindings := context.bindings ++ [record.1] }) := by
        apply changeDeclContext_keeps valid (declContext_stored valid)
        intro _
        simp [undoChange]
      apply appended.trans
      rw [File.indexBindingInDeclContext]
      split
      · exact foldl_keeps (fun file kind => assignDeclContextIndex_keeps file _ kind _ _) _ _
      · exact .refl _
    case isFalse => exact added

theorem stampModuleExport_keeps (file : File contents) (context : DeclContextId)
    (entity : EntityId) : file.Keeps (file.stampModuleExport context entity) := by
  rw [File.stampModuleExport]
  split
  · exact .refl file
  · split
    · exact mutate_keeps file .entities entity _
    · exact .refl file

theorem bindEntity_keeps (file : File contents) (bound : File.EntityBinding) :
    file.Keeps (file.bindEntity bound).2 := by
  rw [File.bindEntity]
  split
  · exact (stampModuleExport_keeps file _ _).trans (addBinding_keeps _ _)
  · exact .refl file

theorem bindCallableOverload_keeps (file : File contents) (context : DeclContextId)
    (name : NameId) (entity : EntityId) (type : TypeRef) (isDefinition : Bool) (loc : SrcLoc) :
    file.Keeps (file.bindCallableOverload context name entity type isDefinition loc).2 := by
  rw [File.bindCallableOverload]
  split
  · apply (stampModuleExport_keeps file context entity).trans
    generalize file.stampModuleExport context entity = stamped
    simp only
    split
    · exact (mutate_keeps stamped .bindings _ _).trans (assignDeclContextIndex_keeps _ _ _ _ _)
    · split
      · exact (bindEntity_keeps stamped _).trans (mutate_keeps _ .bindings _ _)
      · exact bindEntity_keeps stamped _
  · exact .refl file

theorem addAliasBinding_keeps (file : File contents) (context : DeclContextId)
    (source : Record contents .bindings) (loc : SrcLoc) (introductionGeneration : UInt64) :
    file.Keeps (file.addAliasBinding context source loc introductionGeneration).2 := by
  rw [File.addAliasBinding]
  split
  · simp only
    split
    · exact (mutate_keeps file .bindings _ _).trans (assignDeclContextIndex_keeps _ _ _ _ _)
    · exact addBinding_keeps file _
  · exact .refl file

theorem mutableOrdinaryBinding_keeps (file : File contents) (context : DeclContextId)
    (spelling : String) (change : Record contents .bindings → Record contents .bindings) :
    file.Keeps (file.mutableOrdinaryBinding context spelling change) := by
  rw [File.mutableOrdinaryBinding]
  split
  · exact .refl file
  · split
    · split
      · exact mutate_keeps file .bindings _ change
      · exact .refl file
    · exact .refl file

end Bindings

section Facts

theorem changeFact_keeps (file : File contents) (map : FactMap) (key : UInt64)
    (change : Fact contents map → Fact contents map) :
    file.Keeps (file.changeFact map key change) := by
  rw [File.changeFact]
  split
  · exact .refl file
  · exact assignFact_keeps file map key _

/-- A write through `record_facts` changes nothing, or the innermost transaction has a
copy of the facts. -/
def File.FactsCovered (file : File contents) (entity : EntityId)
    (change : Fact contents .recordFacts → Fact contents .recordFacts) : Prop :=
  ∀ top, file.transactions.head? = some top → ∀ facts,
    file.graph.facts .recordFacts (idKey entity) = some facts →
    change facts = facts ∨ isSaved (top.savedFacts .recordFacts) (idKey entity) = true

theorem setFact_same {graph : Graph contents} {map : FactMap} {key : UInt64}
    {fact : Fact contents map} (stored : graph.facts map key = some fact) :
    graph.setFact map key fact = graph := by
  have entry : Function.update (graph.facts map) key (some fact) = graph.facts map := by
    rw [← stored, Function.update_eq_self]
  rw [Graph.setFact, entry, Function.update_eq_self]

theorem recordFacts_keeps {entity : EntityId}
    {change : Fact contents .recordFacts → Fact contents .recordFacts}
    (covered : file.FactsCovered entity change) :
    file.Keeps (file.recordFacts entity change) := by
  rw [File.recordFacts]
  split
  · exact .refl file
  case h_2 facts stored =>
    by_cases unchanged : change facts = facts
    · rw [unchanged, setFact_same stored]
      exact .refl file
    · apply setFact_keeps
      intro top innermost
      exact (covered top innermost facts stored).resolve_left unchanged

theorem methodFactMut_keeps (file : File contents) (method : EntityId)
    (change : RecordMethodFact contents.MethodRest → RecordMethodFact contents.MethodRest) :
    file.Keeps (file.methodFactMut method change) := by
  rw [File.methodFactMut]
  simp only
  split
  · split
    · exact .refl file
    · exact assignFact_keeps file .recordFacts _ _
  · exact .refl file

theorem coroutineFactForFunctionMut_keeps (file : File contents) (function : EntityId)
    (change : Record contents .coroutineFacts → Record contents .coroutineFacts) :
    file.Keeps (file.coroutineFactForFunctionMut function change) := by
  rw [File.coroutineFactForFunctionMut]
  split
  · exact mutateAt_keeps file .coroutineFacts _ change
  · exact .refl file

end Facts

section Retype

/-- The instructions that would be retyped came after the innermost transaction began,
or it has copies of them. -/
def File.PlacesCovered (file : File contents) (entity : EntityId) (place : TypeId) : Prop :=
  ∀ top, file.transactions.head? = some top → ∀ slot inst,
    (file.graph.rows .insts)[slot]? = some inst →
    file.placeToRetype entity place inst = true → slot < top.sizes .insts →
    isSaved (top.saved .insts) slot = true

variable {entity : EntityId}

theorem mutate_placeFacts_covered {place : TypeId} (covered : file.PlacesCovered entity place)
    (id : PlaceFactId) (change : Record contents .placeFacts → Record contents .placeFacts) :
    (file.mutate .placeFacts id change).PlacesCovered entity place := by
  rw [File.mutate]
  split
  · intro top innermost slot inst stored retyped older
    cases transactions : file.transactions with
    | nil => simp [File.mutateAt, File.recordMutation, File.note, File.setRows, transactions]
        at innermost
    | cons first rest =>
      simp only [File.mutateAt, File.recordMutation, File.note, File.setRows, transactions,
        modifyHead_cons, head?_cons, Option.some.injEq] at innermost
      subst innermost
      exact covered first (by rw [transactions]; rfl) slot inst stored retyped older
  · exact covered

theorem set_eq_modify {slot : ℕ} {old : Element} (_stored : list[slot]? = some old)
    (new : Element) :
    list.set slot new = list.modify slot fun _ => new := by
  apply ext_getElem?
  intro other
  rw [getElem?_set, getElem?_modify]
  by_cases same : slot = other
  · subst same
    have inside := (List.getElem?_eq_some_iff.mp _stored).1
    simp [inside]
  · simp [same]

theorem retypeInst_keeps {place : TypeId} (covered : file.PlacesCovered entity place)
    (objectRef : TypeRef) (slot : ℕ) :
    file.Keeps (file.retypeInst entity place objectRef slot) ∧
      (file.retypeInst entity place objectRef slot).PlacesCovered entity place := by
  rw [File.retypeInst]
  split
  · exact ⟨.refl file, covered⟩
  case h_2 inst stored =>
    split
    case isFalse => exact ⟨.refl file, covered⟩
    case isTrue retyped =>
      have written : file.Keeps (file.setRows .insts
          ((file.graph.rows .insts).set slot { inst with resultType := place })) := by
        rw [set_eq_modify stored]
        apply setRows_modify_keeps
        exact fun top innermost older => covered top innermost slot inst stored retyped older
      have coveredAfter : (file.setRows .insts ((file.graph.rows .insts).set slot
          { inst with resultType := place })).PlacesCovered entity place := by
        intro top innermost other changed present again older
        have rows : ((file.graph.rows .insts).set slot
            { inst with resultType := place })[other]? = some changed := present
        rw [getElem?_set] at rows
        by_cases same : slot = other
        · -- the instruction has the type of the place now
          subst same
          have inside := (List.getElem?_eq_some_iff.mp stored).1
          simp only [if_true, inside, Option.some.injEq] at rows
          rw [← rows] at again
          simp [File.placeToRetype] at again
        · rw [if_neg same] at rows
          exact covered top innermost other changed rows again older
      simp only
      split
      · exact ⟨written.trans (mutate_keeps _ .placeFacts _ _),
          mutate_placeFacts_covered coveredAfter _ _⟩
      · exact ⟨written, coveredAfter⟩

theorem foldl_retypeInst_keeps {place : TypeId} (covered : file.PlacesCovered entity place)
    (objectRef : TypeRef) (slots : List ℕ) :
    file.Keeps (slots.foldl
      (fun file slot => file.retypeInst entity place objectRef slot) file) := by
  induction slots generalizing file with
  | nil => exact .refl file
  | cons slot rest ih =>
    obtain ⟨kept, coveredAfter⟩ := retypeInst_keeps covered objectRef slot
    exact kept.trans (ih coveredAfter)

/-- The reference to the type of the objects that an entity names. -/
def File.objectRef (file : File contents) (entity : EntityId) : TypeRef :=
  ⟨(file.entity entity).type, (file.entity entity).qualifiers, (file.entity entity).memorySpace⟩

theorem retypeEntityPlaces_keeps {environment : Environment}
    (covered : file.PlacesCovered entity (file.placeType environment (file.objectRef entity)).1) :
    file.Keeps (file.retypeEntityPlaces environment entity) := by
  rw [File.retypeEntityPlaces]
  split
  · simp only
    split
    · have interned : file.Keeps (file.placeType environment (file.objectRef entity)).2 :=
        interned_keeps file (internType_keeps environment.stringHash _ _)
      apply interned.trans
      apply foldl_retypeInst_keeps
      exact covered
    · exact .refl file
  · exact .refl file

end Retype

section Calls

variable (environment : Environment)

/-- The calls that open or close no transaction. -/
def Call.isMutator : Call contents → Bool
  | .beginTransaction | .commitTransaction _ | .rollbackTransaction _ => false
  | _ => true

/-- What a mutator needs so that its changes can be taken back. -/
def File.Covers (file : File contents) : Call contents → Prop
  | .addUsingDirective context _ => file.OriginsComplete context
  | .recordFacts entity change => file.FactsCovered entity change
  | .retypeEntityPlaces entity =>
    file.PlacesCovered entity (file.placeType environment (file.objectRef entity)).1
  | _ => True

theorem diagnostics_add_extends (diagnostics : Diagnostics) (message : SrcLoc × String) :
    diagnostics.Extends (diagnostics.add message) := by
  refine ⟨prefix_append _ _, fun pinned => ?_⟩
  simp only [Diagnostics.add, length_append, length_singleton]
  exact le_trans pinned (Nat.le_succ _)

theorem diagnostics_pin_extends (diagnostics : Diagnostics) :
    diagnostics.Extends diagnostics.pin :=
  ⟨prefix_rfl, fun _ => le_refl _⟩

theorem diagnostics_keeps (file : File contents) {errors notes : Diagnostics}
    (errorsExtend : file.errors.Extends errors) (notesExtend : file.notes.Extends notes) :
    file.Keeps { file with errors := errors, notes := notes } :=
  ⟨rfl, fun _ => le_refl _, fun _ _ => .refl _ _, fun _ => rfl, .refl _, errorsExtend, notesExtend⟩

/-- Either side of a condition keeps what the transactions restore. -/
theorem ite_keeps {condition : Prop} [Decidable condition] {next : File contents}
    (keeps : file.Keeps next) : file.Keeps (if condition then next else file) := by
  split
  · exact keeps
  · exact .refl file

theorem call_keeps {call : Call contents} (mutator : call.isMutator = true)
    (covers : file.Covers environment call) : file.Keeps (file.call environment call) := by
  cases call with
  | beginTransaction | commitTransaction id | rollbackTransaction id =>
    exact absurd mutator Bool.false_ne_true
  | internName spelling => exact internName_keeps file spelling
  | internType spec => exact interned_keeps file (internType_keeps environment.stringHash _ spec)
  | internTemplateValueExpression expression =>
    exact interned_keeps file
      ((keeps_walk environment.stringHash).internTemplateValueExpression _ expression)
  | builtinType kind => exact builtinType_keeps environment file kind
  | addEntity entity => exact addRecord_keeps file .entities _
  | entityMut id change => exact mutate_keeps file .entities id change
  | addDeclContext context => exact addDeclContext_keeps file context
  | createDeclContext kind parent owner loc => exact addDeclContext_keeps file _
  | declContextMut id change => exact mutate_keeps file .declContexts id change
  | addUsingDirective context target => exact addUsingDirective_keeps covers target
  | addBinding binding => exact addBinding_keeps file binding
  | bindingMut id change => exact mutate_keeps file .bindings id change
  | mutableOrdinaryBinding context spelling change =>
    exact mutableOrdinaryBinding_keeps file context spelling change
  | bindEntity bound => exact bindEntity_keeps file bound
  | bindCallableOverload context name entity type isDefinition loc =>
    exact bindCallableOverload_keeps file context name entity type isDefinition loc
  | addAliasBinding context source loc introductionGeneration =>
    exact addAliasBinding_keeps file context source loc introductionGeneration
  | placeFactMut id change => exact mutate_keeps file .placeFacts id change
  | placeholderResultFactMut id change =>
    exact mutate_keeps file .placeholderResultFacts id change
  | closureIdentityMut id change => exact mutate_keeps file .closureIdentities id change
  | moduleUnitMut id change => exact mutate_keeps file .moduleUnits id change
  | instMut id change => exact mutate_keeps file .insts id change
  | blockMut id change => exact mutate_keeps file .blocks id change
  | appendToBlock block inst | setTerminator block terminator =>
    exact mutate_keeps file .blocks block _
  | functionMut id change => exact mutate_keeps file .functions id change
  | coroutineFactForFunctionMut function change =>
    exact coroutineFactForFunctionMut_keeps file function change
  | addPlaceFact fact => exact addRecord_keeps file .placeFacts fact
  | addPlaceholderResultFact fact => exact addRecord_keeps file .placeholderResultFacts fact
  | addConstantState fact => exact addRecord_keeps file .constantStates fact
  | addClosureIdentity fact => exact addRecord_keeps file .closureIdentities fact
  | addSwitchFact fact => exact addRecord_keeps file .switchFacts fact
  | addModuleUnit fact => exact addRecord_keeps file .moduleUnits fact
  | addInst inst => exact addRecord_keeps file .insts inst
  | addInlineAsmPayload payload => exact addRecord_keeps file .inlineAsmPayloads payload
  | addBlock block => exact addRecord_keeps file .blocks block
  | addFunction function => exact addRecord_keeps file .functions function
  | addGeneric generic => exact addRecord_keeps file .generics generic
  | addSpecific specific => exact addRecord_keeps file .specifics specific
  | addCoroutineFact fact => exact setRows_append_keeps file rfl [fact]
  | addPayload payload => exact setRows_append_keeps file rfl [payload]
  | addOperands operands =>
    exact @setRows_append_keeps contents file .operands rfl operands
  | addModuleAsm text => exact setRows_append_keeps file rfl [text]
  | addWarning message => exact setRows_append_keeps file rfl [message]
  | setRecordFacts entity facts => exact ite_keeps (assignFact_keeps file .recordFacts _ _)
  | recordFacts entity change => exact recordFacts_keeps covers
  | methodFactMut method change => exact methodFactMut_keeps file method change
  | setObjcInterfaceFacts entity facts =>
    exact ite_keeps (assignFact_keeps file .objcInterfaceFacts _ _)
  | objcInterfaceFactsMut entity change =>
    exact changeFact_keeps file .objcInterfaceFacts _ change
  | setDefaultedComparisonFact function fact =>
    exact ite_keeps (assignFact_keeps file .defaultedComparisonFacts _ _)
  | defaultedComparisonFactMut function change =>
    exact ite_keeps (changeFact_keeps file .defaultedComparisonFacts _ change)
  | setStructuredBindingFact backing fact =>
    exact ite_keeps (assignFact_keeps file .structuredBindingFacts _ _)
  | structuredBindingFactMut backing change =>
    exact ite_keeps (changeFact_keeps file .structuredBindingFacts _ change)
  | setTemplateSpecialization entity fact =>
    exact ite_keeps (assignFact_keeps file .templateSpecializations _ fact)
  | retypeEntityPlaces entity => exact retypeEntityPlaces_keeps covers
  | addError message =>
    exact diagnostics_keeps file (diagnostics_add_extends file.errors message) (.refl _)
  | addNote message =>
    exact diagnostics_keeps file (.refl _) (diagnostics_add_extends file.notes message)
  | pinDiagnostics =>
    exact diagnostics_keeps file (diagnostics_pin_extends file.errors)
      (diagnostics_pin_extends file.notes)
  | noteModuleEntityRedeclared entity => exact ite_keeps (setSettings_keeps file _)
  | markPrelude | setActiveModuleContext context | setActiveModuleVisibility unit visible
  | noteImportedDefinitionsSince first | setCoroutinesLowered lowered =>
    exact setSettings_keeps file _

end Calls

end Aburi.Cir.Full
