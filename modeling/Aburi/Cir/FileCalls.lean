import Aburi.Cir.FileTables

/-!
# The calls that change a CIR file

Interning, adding records, writing through the accessors that hand out references,
binding names in declaration contexts, setting facts, and the transactions around
them.  A write through a reference is a function that is applied to the record.
-/

namespace Aburi.Cir.Full

open Aburi.Lib Function

/-- What the file gets from its target and from the standard library. -/
structure Environment where
  stringHash : String → UInt64
  canonicalBuiltinTypeKind : BuiltinTypeKind → BuiltinTypeKind
  builtinTypeKindName : BuiltinTypeKind → String

variable {contents : Contents}

namespace File

section Interning

variable (environment : Environment) (file : File contents)

def internName (spelling : String) : NameId × File contents :=
  match file.graph.nameIndex spelling with
  | some id => (id, file)
  | none =>
    let noted := file.note fun transaction =>
      { transaction with insertedNameKeys := transaction.insertedNameKeys ++ [spelling] }
    let added := noted.addRecord .names spelling
    let graph := added.2.graph
    (added.1,
      { added.2 with
        graph :=
          { graph with nameIndex := update graph.nameIndex spelling (some added.1) } })

def internType (spec : TypeSpec) : TypeId × File contents :=
  let interned := file.interned.internType environment.stringHash spec
  (interned.1, { file with interned := interned.2 })

def internTemplateValueExpression (expression : TemplateValueExpression) :
    ValueExprId × File contents :=
  let interned :=
    file.interned.internTemplateValueExpression environment.stringHash expression
  (interned.1, { file with interned := interned.2 })

def builtinType (kind : BuiltinTypeKind) : TypeId × File contents :=
  let kind := environment.canonicalBuiltinTypeKind kind
  match file.graph.builtinTypes kind with
  | some id => (id, file)
  | none =>
    let spelling := environment.builtinTypeKindName kind
    let name := file.internName spelling
    let type := name.2.internType environment
      { kind := .builtin
        payload := .builtin { kind := kind, spelling := spelling }
        debugName := name.1 }
    let noted := type.2.note fun transaction =>
      { transaction with
        insertedBuiltinTypeKeys := transaction.insertedBuiltinTypeKeys ++ [kind] }
    let graph := noted.graph
    (type.1,
      { noted with
        graph :=
          { graph with
            builtinTypes := update graph.builtinTypes kind (some type.1) } })

def placeType (objectType : TypeRef) : TypeId × File contents :=
  file.internType environment { kind := .place, payload := .place objectType }

end Interning

section Contexts

variable (file : File contents)

/-- An entity of the module that is being read is marked as coming from it. -/
def addEntity (entity : Record contents .entities) : EntityId × File contents :=
  let active := file.graph.settings.activeModule
  let entity :=
    if active.unit.valid then
      let entity : Record contents .entities :=
        { entity with originUnit := active.unit, originFragment := active.fragment }
      let exempt := entity.kind = .nameSpace ∨ entity.kind = .namespaceAlias ∨
        entity.kind = .typeAlias
      if ¬ exempt ∧ (active.fragment = .purview ∨ active.fragment = .privateFragment) then
        { entity with moduleAttachment := active.unit }
      else entity
    else entity
  file.addRecord .entities entity

/-- The innermost transaction notes each change of the context: the context is older
than it, and no copy of the context was taken. -/
def journalsDeclContext (id : DeclContextId) : Bool :=
  match file.transactions with
  | [] => false
  | transaction :: _ =>
    file.valid .declContexts id &&
      decide (id.index.toNat < transaction.sizes .declContexts) &&
      !isSaved (transaction.saved .declContexts) id.index.toNat

def journalDeclContext (id : DeclContextId) (change : DeclContextChange) : File contents :=
  if file.journalsDeclContext id then
    file.note fun transaction =>
      { transaction with
        declContextDeltas :=
          transaction.declContextDeltas ++ [{ context := id.index.toNat, change := change }] }
  else file

/-- A change of a context, after it was noted. -/
def changeDeclContext (id : DeclContextId) (change : DeclContextChange)
    (apply : DeclContext → DeclContext) : File contents :=
  (file.journalDeclContext id change).setRows .declContexts
    ((file.graph.rows .declContexts).modify id.index.toNat apply)

def assignDeclContextIndex (id : DeclContextId) (kind : DeclContextIndexKind) (key : UInt64)
    (binding : BindingId) : File contents :=
  if file.valid .declContexts id then
    file.changeDeclContext id (.indexAssigned kind key ((file.declContext id).indexes kind key))
      fun context =>
        { context with
          indexes := update context.indexes kind
            (update (context.indexes kind) key (some binding)) }
  else file

def addDeclContext (context : DeclContext) : DeclContextId × File contents :=
  let added := file.addRecord .declContexts context
  if added.2.valid .declContexts context.parent then
    (added.1, added.2.changeDeclContext context.parent .childAppended fun parent =>
      { parent with children := parent.children ++ [added.1] })
  else added

def createDeclContext (kind : DeclContextKind) (parent : DeclContextId) (owner : EntityId)
    (loc : SrcLoc) : DeclContextId × File contents :=
  file.addDeclContext { kind := kind, parent := parent, owner := owner, loc := loc }

def addUsingDirective (context target : DeclContextId) : File contents :=
  if file.valid .declContexts context ∧ file.valid .declContexts target ∧ context ≠ target ∧
      target ∉ (file.declContext context).usingDirectives then
    file.changeDeclContext context .usingDirectiveAppended fun record =>
      let directives := record.usingDirectives ++ [target]
      { record with
        usingDirectives := directives
        usingDirectiveOrigins :=
          (resize {} directives.length record.usingDirectiveOrigins).dropLast ++
            [file.graph.settings.activeModule.unit] }
  else file

end Contexts

section Bindings

variable (file : File contents)

inductive OrdinaryBindingCategory where
  | value | callable | typeName | templateName | namespaceName

def ordinaryBindingMatchesCategory (binding : Record contents .bindings)
    (category : OrdinaryBindingCategory) : Bool :=
  if binding.lookupNamespace = .ordinary then
    let kind := binding.entities.getLast?.map fun id => (file.entity id).kind
    match category with
    | .typeName => binding.isTypeName
    | .templateName => binding.isTemplateName
    | .namespaceName => kind = some .nameSpace || kind = some .namespaceAlias
    | .callable =>
      kind = some .function || kind = some .method || kind = some .constructor ||
        kind = some .destructor
    | .value =>
      kind = some .parameter || kind = some .variable || kind = some .enumerator ||
        kind = some .field || kind = some .structuredBinding
  else false

/-- The indexes of a context under which a binding is found. -/
def bindingIndexKinds (binding : Record contents .bindings) : List DeclContextIndexKind :=
  let under (category : OrdinaryBindingCategory) (kind : DeclContextIndexKind) :=
    if file.ordinaryBindingMatchesCategory binding category then [kind] else []
  match binding.lookupNamespace with
  | .ordinary =>
    [.ordinaryLatest] ++ under .value .ordinaryValue ++ under .callable .ordinaryCallable ++
      under .typeName .ordinaryTypeName ++ under .templateName .ordinaryTemplateName ++
      under .namespaceName .ordinaryNamespace
  | .tag => [.tag]
  | .label => [.label]
  | .none => []

def indexBindingInDeclContext (context : DeclContextId) (id : BindingId) : File contents :=
  if file.valid .declContexts context ∧ file.valid .bindings id ∧
      file.valid .names (file.binding id).name then
    (file.bindingIndexKinds (file.binding id)).foldl
      (fun file kind =>
        file.assignDeclContextIndex context kind (idKey (file.binding id).name) id) file
  else file

def addBinding (binding : Record contents .bindings) : BindingId × File contents :=
  if binding.context.valid ∧ ¬ file.valid .declContexts binding.context then ({}, file)
  else
    let added := file.addRecord .bindings binding
    if added.2.valid .declContexts binding.context then
      let appended := added.2.changeDeclContext binding.context .bindingAppended fun context =>
        { context with bindings := context.bindings ++ [added.1] }
      (added.1, appended.indexBindingInDeclContext binding.context added.1)
    else added

def stampModuleExport (context : DeclContextId) (entity : EntityId) : File contents :=
  if file.graph.settings.activeModule.exportDepth = 0 ∨ ¬ file.valid .entities entity then file
  else if (file.declContext context).kind = .nameSpace ∨
      (file.declContext context).kind = .translationUnit then
    file.mutate .entities entity fun record => { record with isModuleExported := true }
  else file

structure EntityBinding where
  context : DeclContextId
  name : NameId
  lookupNamespace : LookupNamespace
  entity : EntityId
  type : TypeRef
  isTypeName : Bool := false
  isTemplateName : Bool := false
  isDefinition : Bool := false
  place : InstId := {}
  loc : SrcLoc := 0

def bindEntity (bound : EntityBinding) : BindingId × File contents :=
  if file.valid .declContexts bound.context ∧ file.valid .names bound.name ∧
      file.valid .entities bound.entity then
    (file.stampModuleExport bound.context bound.entity).addBinding
      { name := bound.name
        context := bound.context
        lookupNamespace := bound.lookupNamespace
        entities := [bound.entity]
        entityGenerations := [0]
        type := bound.type
        place := bound.place
        isTypeName := bound.isTypeName
        isTemplateName := bound.isTemplateName
        isDefinition := bound.isDefinition
        loc := bound.loc
        rest := contents.rest .bindings }
  else ({}, file)

/-- The callable binding that a context has for a name. -/
def callableBinding (context : DeclContextId) (name : NameId) : Option BindingId :=
  match (file.declContext context).indexes .ordinaryCallable (idKey name) with
  | some id => if file.valid .bindings id then some id else none
  | none => none

def bindCallableOverload (context : DeclContextId) (name : NameId) (entity : EntityId)
    (type : TypeRef) (isDefinition : Bool) (loc : SrcLoc) : BindingId × File contents :=
  if file.valid .declContexts context ∧ file.valid .names name ∧
      file.valid .entities entity then
    let file := file.stampModuleExport context entity
    let blockScope := decide ((file.declContext context).kind = .block)
    match file.callableBinding context name with
    | some callable =>
      let changed := file.mutate .bindings callable fun binding =>
        let entities := if entity ∈ binding.entities then [] else [entity]
        { binding with
          hasBlockScopeFunctionDeclaration :=
            binding.hasBlockScopeFunctionDeclaration || blockScope
          entities := binding.entities ++ entities
          entityGenerations := binding.entityGenerations ++ entities.map fun _ => 0
          type := type
          isDefinition := binding.isDefinition || isDefinition
          loc := loc }
      (callable, changed.assignDeclContextIndex context .ordinaryLatest (idKey name) callable)
    | none =>
      let bound := file.bindEntity
        { context := context
          name := name
          lookupNamespace := .ordinary
          entity := entity
          type := type
          isDefinition := isDefinition
          loc := loc }
      if blockScope then
        (bound.1, bound.2.mutate .bindings bound.1 fun binding =>
          { binding with hasBlockScopeFunctionDeclaration := true })
      else bound
  else ({}, file)

/-- Entities that the binding does not have yet are appended to it. -/
def mergeEntities (introductionGeneration : UInt64) (entities : List EntityId)
    (binding : Record contents .bindings) : Record contents .bindings :=
  entities.foldl
    (fun binding entity =>
      if entity ∈ binding.entities then binding
      else
        { binding with
          entities := binding.entities ++ [entity]
          entityGenerations := binding.entityGenerations ++ [introductionGeneration] })
    binding

def addAliasBinding (context : DeclContextId) (source : Record contents .bindings)
    (loc : SrcLoc) (introductionGeneration : UInt64) : BindingId × File contents :=
  if file.valid .declContexts context then
    let callable :=
      if file.ordinaryBindingMatchesCategory source .callable then
        file.callableBinding context source.name
      else none
    match callable with
    | some callable =>
      let changed := file.mutate .bindings callable fun binding =>
        { mergeEntities introductionGeneration source.entities binding with
          generation := introductionGeneration
          loc := loc }
      (callable,
        changed.assignDeclContextIndex context .ordinaryLatest (idKey source.name) callable)
    | none =>
      file.addBinding
        { source with
          context := context
          loc := loc
          generation := introductionGeneration
          entityGenerations := source.entities.map fun _ => introductionGeneration }
  else ({}, file)

/-- A write through `mutable_ordinary_binding`. -/
def mutableOrdinaryBinding (context : DeclContextId) (spelling : String)
    (change : Record contents .bindings → Record contents .bindings) : File contents :=
  match file.graph.nameIndex spelling with
  | none => file
  | some name =>
    if file.valid .declContexts context ∧ file.valid .names name then
      match (file.declContext context).indexes .ordinaryLatest (idKey name) with
      | some id => file.mutate .bindings id change
      | none => file
    else file

end Bindings

section Facts

variable (file : File contents)

def setRecordFacts (entity : EntityId) (facts : Fact contents .recordFacts) : File contents :=
  if file.valid .entities entity ∧ (file.entity entity).kind = .record then
    file.assignFact .recordFacts (idKey entity) { facts with entity := entity }
  else file

/-- A write through `record_facts`; unlike the accessors below it notes nothing. -/
def recordFacts (entity : EntityId)
    (change : Fact contents .recordFacts → Fact contents .recordFacts) : File contents :=
  match file.graph.facts .recordFacts (idKey entity) with
  | none => file
  | some facts =>
    { file with graph := file.graph.setFact .recordFacts (idKey entity) (change facts) }

/-- A write through `method_fact_mut`: the facts of the record are copied even if the
method is not among them. -/
def methodFactMut (method : EntityId)
    (change : RecordMethodFact contents.MethodRest → RecordMethodFact contents.MethodRest) :
    File contents :=
  let kind := (file.entity method).kind
  if file.valid .entities method ∧
      (kind = .method ∨ kind = .constructor ∨ kind = .destructor) then
    let key := idKey (file.entity method).parent
    match file.graph.facts .recordFacts key with
    | none => file
    | some facts =>
      file.assignFact .recordFacts key
        { facts with
          methods :=
            match facts.methods.findIdx? fun fact => decide (fact.entity = method) with
            | some position => facts.methods.modify position change
            | none => facts.methods }
  else file

def setObjcInterfaceFacts (entity : EntityId) (facts : Fact contents .objcInterfaceFacts) :
    File contents :=
  let kind := (file.entity entity).kind
  if file.valid .entities entity ∧
      (kind = .objcInterface ∨ kind = .objcProtocol ∨ kind = .objcCategory) then
    file.assignFact .objcInterfaceFacts (idKey entity) { facts with entity := entity }
  else file

/-- A write to facts that are there. -/
def changeFact (map : FactMap) (key : UInt64) (change : Fact contents map → Fact contents map) :
    File contents :=
  match file.graph.facts map key with
  | none => file
  | some fact => file.assignFact map key (change fact)

def objcInterfaceFactsMut (entity : EntityId)
    (change : Fact contents .objcInterfaceFacts → Fact contents .objcInterfaceFacts) :
    File contents :=
  file.changeFact .objcInterfaceFacts (idKey entity) change

def setDefaultedComparisonFact (function : EntityId)
    (fact : Fact contents .defaultedComparisonFacts) : File contents :=
  if file.valid .entities function then
    file.assignFact .defaultedComparisonFacts (idKey function) { fact with entity := function }
  else file

def defaultedComparisonFactMut (function : EntityId)
    (change : Fact contents .defaultedComparisonFacts →
      Fact contents .defaultedComparisonFacts) : File contents :=
  if file.valid .entities function then
    file.changeFact .defaultedComparisonFacts (idKey function) change
  else file

def setStructuredBindingFact (backing : EntityId)
    (fact : Fact contents .structuredBindingFacts) : File contents :=
  if file.valid .entities backing ∧ (file.entity backing).kind = .variable then
    file.assignFact .structuredBindingFacts (idKey backing) { fact with entity := backing }
  else file

def structuredBindingFactMut (backingOrBinding : EntityId)
    (change : Fact contents .structuredBindingFacts → Fact contents .structuredBindingFacts) :
    File contents :=
  let source := file.entity backingOrBinding
  let backing :=
    if source.kind = .structuredBinding then source.structuredBindingBacking
    else backingOrBinding
  if file.valid .entities backingOrBinding ∧ file.valid .entities backing then
    file.changeFact .structuredBindingFacts (idKey backing) change
  else file

def setTemplateSpecialization (entity : EntityId)
    (fact : Fact contents .templateSpecializations) : File contents :=
  let kind := (file.entity entity).kind
  if file.valid .entities entity ∧
      (kind = .record ∨ kind = .function ∨ kind = .method ∨ kind = .constructor ∨
        kind = .destructor ∨ kind = .variable) then
    file.assignFact .templateSpecializations (idKey entity) fact
  else file

end Facts

section Writes

variable (file : File contents)

def coroutineFactForFunctionMut (function : EntityId)
    (change : Record contents .coroutineFacts → Record contents .coroutineFacts) :
    File contents :=
  match (file.graph.rows .coroutineFacts).findIdx? fun fact =>
      decide (fact.function = function) with
  | some slot => file.mutateAt .coroutineFacts slot change
  | none => file

def appendToBlock (block : BlockId) (inst : InstId) : File contents :=
  file.mutate .blocks block fun record =>
    { record with instructions := record.instructions ++ [inst] }

def setTerminator (block : BlockId) (terminator : contents.Terminator) : File contents :=
  file.mutate .blocks block fun record => { record with terminator := terminator }

def addOperands (operands : List OperandData) : OperandRange × File contents :=
  (⟨UInt32.ofNat (file.size .operands), UInt32.ofNat operands.length⟩,
    file.setRows .operands (file.graph.rows .operands ++ operands))

/-- The instruction names a place of the entity under another type. -/
def placeToRetype (entity : EntityId) (place : TypeId) (inst : Record contents .insts) :
    Bool :=
  (inst.kind = .localPlace || inst.kind = .globalPlace) && inst.resultType != place &&
    match (file.operands inst.operands).head? with
    | some (.entity named) => named = entity
    | _ => false

/-- The type of the instruction is written in place; only the place fact is written
through its accessor. -/
def retypeInst (entity : EntityId) (place : TypeId) (objectRef : TypeRef) (slot : ℕ) :
    File contents :=
  match (file.graph.rows .insts)[slot]? with
  | none => file
  | some inst =>
    if file.placeToRetype entity place inst then
      let retyped := file.setRows .insts
        ((file.graph.rows .insts).set slot { inst with resultType := place })
      if inst.placeFact.valid then
        retyped.mutate .placeFacts inst.placeFact fun fact =>
          { fact with objectType := objectRef }
      else retyped
    else file

def retypeEntityPlaces (environment : Environment) (entity : EntityId) : File contents :=
  if file.valid .entities entity then
    let named := file.entity entity
    let objectRef : TypeRef := ⟨named.type, named.qualifiers, named.memorySpace⟩
    if file.interned.validType objectRef.type then
      let place := file.placeType environment objectRef
      (List.range (place.2.size .insts)).foldl
        (fun file slot => file.retypeInst entity place.1 objectRef slot) place.2
    else file
  else file

def markPrelude : File contents :=
  file.setSettings
    { file.graph.settings with
      preludeMark := ⟨file.size .entities, file.size .declContexts, file.size .bindings⟩ }

def setActiveModuleContext (context : ActiveModuleContext) : File contents :=
  file.setSettings { file.graph.settings with activeModule := context }

def setActiveModuleVisibility (unit : ModuleAttachmentId) (visible : List UInt32) :
    File contents :=
  file.setSettings
    { file.graph.settings with
      visibilityUnit := unit
      visibleUnits := visible.foldl (fun units index => units.set index.toNat true)
        (List.replicate (file.size .moduleUnits) false) }

def noteModuleEntityRedeclared (entity : EntityId) : File contents :=
  let noted := file.graph.settings.moduleRedeclaredEntities
  if entity.valid then
    file.setSettings
      { file.graph.settings with
        moduleRedeclaredEntities :=
          (resize false (max noted.length (entity.index.toNat + 1)) noted).set
            entity.index.toNat true }
  else file

def noteImportedDefinitionsSince (first : ℕ) : File contents :=
  let noted := file.graph.settings.importedDefinitionEntities
  let noted := resize false (max noted.length (file.size .entities)) noted
  file.setSettings
    { file.graph.settings with
      importedDefinitionEntities := noted.mapIdx fun index flag =>
        match (file.graph.rows .entities)[index]? with
        | some entity => flag || (decide (first ≤ index) && entity.isDefinition)
        | none => flag }

def setCoroutinesLowered (lowered : Bool) : File contents :=
  file.setSettings { file.graph.settings with coroutinesLowered := lowered }

def addError (message : SrcLoc × String) : File contents :=
  { file with errors := file.errors.add message }

def addNote (message : SrcLoc × String) : File contents :=
  { file with notes := file.notes.add message }

def pinDiagnostics : File contents :=
  { file with errors := file.errors.pin, notes := file.notes.pin }

end Writes

end File

/-- The public calls that change a file, other than `import_module_graph`,
`set_target_info` and the switch for the integrity checks.  Calls that only intern what
they build from their arguments are `internName`, `internType` and
`internTemplateValueExpression`. -/
inductive Call (contents : Contents) where
  | beginTransaction
  | commitTransaction (id : TransactionId)
  | rollbackTransaction (id : TransactionId)
  | internName (spelling : String)
  | internType (spec : TypeSpec)
  | internTemplateValueExpression (expression : TemplateValueExpression)
  | builtinType (kind : BuiltinTypeKind)
  | addEntity (entity : Record contents .entities)
  | entityMut (id : EntityId) (change : Record contents .entities → Record contents .entities)
  | addDeclContext (context : DeclContext)
  | createDeclContext (kind : DeclContextKind) (parent : DeclContextId) (owner : EntityId)
      (loc : SrcLoc)
  | declContextMut (id : DeclContextId) (change : DeclContext → DeclContext)
  | addUsingDirective (context target : DeclContextId)
  | addBinding (binding : Record contents .bindings)
  | bindingMut (id : BindingId) (change : Record contents .bindings → Record contents .bindings)
  | mutableOrdinaryBinding (context : DeclContextId) (spelling : String)
      (change : Record contents .bindings → Record contents .bindings)
  | bindEntity (bound : File.EntityBinding)
  | bindCallableOverload (context : DeclContextId) (name : NameId) (entity : EntityId)
      (type : TypeRef) (isDefinition : Bool) (loc : SrcLoc)
  | addAliasBinding (context : DeclContextId) (source : Record contents .bindings)
      (loc : SrcLoc) (introductionGeneration : UInt64)
  | addPlaceFact (fact : Record contents .placeFacts)
  | placeFactMut (id : PlaceFactId)
      (change : Record contents .placeFacts → Record contents .placeFacts)
  | addPlaceholderResultFact (fact : Record contents .placeholderResultFacts)
  | placeholderResultFactMut (id : Id .placeholderResultFacts)
      (change : Record contents .placeholderResultFacts → Record contents .placeholderResultFacts)
  | addConstantState (fact : Record contents .constantStates)
  | addClosureIdentity (fact : Record contents .closureIdentities)
  | closureIdentityMut (id : ClosureIdentityId)
      (change : Record contents .closureIdentities → Record contents .closureIdentities)
  | addSwitchFact (fact : Record contents .switchFacts)
  | addCoroutineFact (fact : Record contents .coroutineFacts)
  | coroutineFactForFunctionMut (function : EntityId)
      (change : Record contents .coroutineFacts → Record contents .coroutineFacts)
  | addModuleUnit (fact : Record contents .moduleUnits)
  | moduleUnitMut (id : ModuleAttachmentId)
      (change : Record contents .moduleUnits → Record contents .moduleUnits)
  | addInst (inst : Record contents .insts)
  | instMut (id : InstId) (change : Record contents .insts → Record contents .insts)
  | addPayload (payload : Record contents .payloads)
  | addInlineAsmPayload (payload : Record contents .inlineAsmPayloads)
  | addOperands (operands : List OperandData)
  | addBlock (block : Record contents .blocks)
  | blockMut (id : BlockId) (change : Record contents .blocks → Record contents .blocks)
  | appendToBlock (block : BlockId) (inst : InstId)
  | setTerminator (block : BlockId) (terminator : contents.Terminator)
  | addFunction (function : Record contents .functions)
  | functionMut (id : Id .functions)
      (change : Record contents .functions → Record contents .functions)
  | addGeneric (generic : Record contents .generics)
  | addSpecific (specific : Record contents .specifics)
  | setRecordFacts (entity : EntityId) (facts : Fact contents .recordFacts)
  | recordFacts (entity : EntityId)
      (change : Fact contents .recordFacts → Fact contents .recordFacts)
  | methodFactMut (method : EntityId)
      (change : RecordMethodFact contents.MethodRest → RecordMethodFact contents.MethodRest)
  | setObjcInterfaceFacts (entity : EntityId) (facts : Fact contents .objcInterfaceFacts)
  | objcInterfaceFactsMut (entity : EntityId)
      (change : Fact contents .objcInterfaceFacts → Fact contents .objcInterfaceFacts)
  | setDefaultedComparisonFact (function : EntityId)
      (fact : Fact contents .defaultedComparisonFacts)
  | defaultedComparisonFactMut (function : EntityId)
      (change : Fact contents .defaultedComparisonFacts → Fact contents .defaultedComparisonFacts)
  | setStructuredBindingFact (backing : EntityId) (fact : Fact contents .structuredBindingFacts)
  | structuredBindingFactMut (backingOrBinding : EntityId)
      (change : Fact contents .structuredBindingFacts → Fact contents .structuredBindingFacts)
  | setTemplateSpecialization (entity : EntityId) (fact : Fact contents .templateSpecializations)
  | retypeEntityPlaces (entity : EntityId)
  | addModuleAsm (text : Record contents .moduleAsm)
  | addWarning (message : Record contents .warnings)
  | addError (message : SrcLoc × String)
  | addNote (message : SrcLoc × String)
  | pinDiagnostics
  | markPrelude
  | setActiveModuleContext (context : ActiveModuleContext)
  | setActiveModuleVisibility (unit : ModuleAttachmentId) (visible : List UInt32)
  | noteModuleEntityRedeclared (entity : EntityId)
  | noteImportedDefinitionsSince (first : ℕ)
  | setCoroutinesLowered (lowered : Bool)

/-- The file after a call. -/
def File.call (environment : Environment) (file : File contents) : Call contents → File contents
  | .beginTransaction => file.beginTransaction.2
  | .commitTransaction id => file.commitTransaction id
  | .rollbackTransaction id => file.rollbackTransaction id
  | .internName spelling => (file.internName spelling).2
  | .internType spec => (file.internType environment spec).2
  | .internTemplateValueExpression expression =>
    (file.internTemplateValueExpression environment expression).2
  | .builtinType kind => (file.builtinType environment kind).2
  | .addEntity entity => (file.addEntity entity).2
  | .entityMut id change => file.mutate .entities id change
  | .addDeclContext context => (file.addDeclContext context).2
  | .createDeclContext kind parent owner loc =>
    (file.createDeclContext kind parent owner loc).2
  | .declContextMut id change => file.mutate .declContexts id change
  | .addUsingDirective context target => file.addUsingDirective context target
  | .addBinding binding => (file.addBinding binding).2
  | .bindingMut id change => file.mutate .bindings id change
  | .mutableOrdinaryBinding context spelling change =>
    file.mutableOrdinaryBinding context spelling change
  | .bindEntity bound => (file.bindEntity bound).2
  | .bindCallableOverload context name entity type isDefinition loc =>
    (file.bindCallableOverload context name entity type isDefinition loc).2
  | .addAliasBinding context source loc introductionGeneration =>
    (file.addAliasBinding context source loc introductionGeneration).2
  | .addPlaceFact fact => (file.addRecord .placeFacts fact).2
  | .placeFactMut id change => file.mutate .placeFacts id change
  | .addPlaceholderResultFact fact => (file.addRecord .placeholderResultFacts fact).2
  | .placeholderResultFactMut id change => file.mutate .placeholderResultFacts id change
  | .addConstantState fact => (file.addRecord .constantStates fact).2
  | .addClosureIdentity fact => (file.addRecord .closureIdentities fact).2
  | .closureIdentityMut id change => file.mutate .closureIdentities id change
  | .addSwitchFact fact => (file.addRecord .switchFacts fact).2
  | .addCoroutineFact fact => file.push .coroutineFacts fact
  | .coroutineFactForFunctionMut function change =>
    file.coroutineFactForFunctionMut function change
  | .addModuleUnit fact => (file.addRecord .moduleUnits fact).2
  | .moduleUnitMut id change => file.mutate .moduleUnits id change
  | .addInst inst => (file.addRecord .insts inst).2
  | .instMut id change => file.mutate .insts id change
  | .addPayload payload => file.push .payloads payload
  | .addInlineAsmPayload payload => (file.addRecord .inlineAsmPayloads payload).2
  | .addOperands operands => (file.addOperands operands).2
  | .addBlock block => (file.addRecord .blocks block).2
  | .blockMut id change => file.mutate .blocks id change
  | .appendToBlock block inst => file.appendToBlock block inst
  | .setTerminator block terminator => file.setTerminator block terminator
  | .addFunction function => (file.addRecord .functions function).2
  | .functionMut id change => file.mutate .functions id change
  | .addGeneric generic => (file.addRecord .generics generic).2
  | .addSpecific specific => (file.addRecord .specifics specific).2
  | .setRecordFacts entity facts => file.setRecordFacts entity facts
  | .recordFacts entity change => file.recordFacts entity change
  | .methodFactMut method change => file.methodFactMut method change
  | .setObjcInterfaceFacts entity facts => file.setObjcInterfaceFacts entity facts
  | .objcInterfaceFactsMut entity change => file.objcInterfaceFactsMut entity change
  | .setDefaultedComparisonFact function fact => file.setDefaultedComparisonFact function fact
  | .defaultedComparisonFactMut function change =>
    file.defaultedComparisonFactMut function change
  | .setStructuredBindingFact backing fact => file.setStructuredBindingFact backing fact
  | .structuredBindingFactMut backing change => file.structuredBindingFactMut backing change
  | .setTemplateSpecialization entity fact => file.setTemplateSpecialization entity fact
  | .retypeEntityPlaces entity => file.retypeEntityPlaces environment entity
  | .addModuleAsm text => file.push .moduleAsm text
  | .addWarning message => file.push .warnings message
  | .addError message => file.addError message
  | .addNote message => file.addNote message
  | .pinDiagnostics => file.pinDiagnostics
  | .markPrelude => file.markPrelude
  | .setActiveModuleContext context => file.setActiveModuleContext context
  | .setActiveModuleVisibility unit visible => file.setActiveModuleVisibility unit visible
  | .noteModuleEntityRedeclared entity => file.noteModuleEntityRedeclared entity
  | .noteImportedDefinitionsSince first => file.noteImportedDefinitionsSince first
  | .setCoroutinesLowered lowered => file.setCoroutinesLowered lowered

end Aburi.Cir.Full
