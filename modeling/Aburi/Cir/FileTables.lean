import Aburi.Cir.InternFile
import Aburi.Lib.Journal

/-!
# The tables of a CIR file

All record tables of a file, its fact maps and its indexes, with the transaction
records that are kept beside them.  The tables of types and of value expressions
are those of `Aburi.Cir.InternFile`, together with what a transaction notes about
them; the other tables are one family, indexed by `Table`.

What a record holds beyond the fields that some function here reads is given by
`Contents`.
-/

namespace Aburi.Cir.Full

open Aburi.Lib Function

inductive DeclContextTag
inductive BindingTag
inductive PlaceFactTag
inductive PlaceholderResultFactTag
inductive SwitchTag
inductive ModuleAttachmentTag
inductive InlineAsmPayloadTag
inductive BlockTag
inductive FunctionTag
inductive GenericTag
inductive SpecificTag
inductive NoIdTag

abbrev DeclContextId := Handle DeclContextTag
abbrev BindingId := Handle BindingTag
abbrev PlaceFactId := Handle PlaceFactTag
abbrev ModuleAttachmentId := Handle ModuleAttachmentTag
abbrev BlockId := Handle BlockTag
abbrev SpecificId := Handle SpecificTag

abbrev TransactionId := UInt32
/-- An offset into the sources. -/
abbrev SrcLoc := UInt32

/-- The key under which maps hold the facts about an id. -/
def idKey {Tag : Type} (id : Handle Tag) : UInt64 :=
  (id.generation.toUInt64 <<< 32) ||| id.index.toUInt64

inductive Table where
  | names | entities | declContexts | bindings | placeFacts | placeholderResultFacts
  | constantStates | closureIdentities | switchFacts | coroutineFacts | moduleUnits
  | insts | payloads | inlineAsmPayloads | operands | blocks | functions | generics
  | specifics | moduleAsm | warnings
  deriving DecidableEq

inductive FactMap where
  | recordFacts | objcInterfaceFacts | defaultedComparisonFacts | structuredBindingFacts
  | templateSpecializations
  deriving DecidableEq

/-- The ids of a table; the tables without ids are addressed by position. -/
@[reducible]
def IdTag : Table → Type
  | .names => NameTag
  | .entities => EntityTag
  | .declContexts => DeclContextTag
  | .bindings => BindingTag
  | .placeFacts => PlaceFactTag
  | .placeholderResultFacts => PlaceholderResultFactTag
  | .constantStates => ConstantStateTag
  | .closureIdentities => ClosureIdentityTag
  | .switchFacts => SwitchTag
  | .moduleUnits => ModuleAttachmentTag
  | .insts => InstTag
  | .inlineAsmPayloads => InlineAsmPayloadTag
  | .blocks => BlockTag
  | .functions => FunctionTag
  | .generics => GenericTag
  | .specifics => SpecificTag
  | .coroutineFacts | .payloads | .operands | .moduleAsm | .warnings => NoIdTag

abbrev Id (table : Table) := Handle (IdTag table)

/-- The parts of the records that no function here reads. -/
structure Contents where
  Rest : Table → Type
  FactRest : FactMap → Type
  MethodRest : Type
  Terminator : Type
  rest : ∀ table, Rest table
  terminator : Terminator

inductive EntityKind where
  | invalid | translationUnit | function | parameter | variable | concept | typeAlias
  | record | enum | enumerator | field | method | constructor | destructor
  | templateParam | structuredBinding | nameSpace | namespaceAlias | objcInterface
  | objcProtocol | objcCategory | objcImplementation | objcMethod | objcIvar
  | objcProperty
  deriving DecidableEq

inductive ModuleFragment where
  | none | global | purview | privateFragment
  deriving DecidableEq

structure Entity (Rest : Type) where
  kind : EntityKind := .invalid
  type : TypeId := {}
  parent : EntityId := {}
  structuredBindingBacking : EntityId := {}
  memorySpace : MemorySpace := .default
  moduleAttachment : ModuleAttachmentId := {}
  originUnit : ModuleAttachmentId := {}
  originFragment : ModuleFragment := .none
  isModuleExported : Bool := false
  qualifiers : UInt8 := 0
  isDefinition : Bool := true
  rest : Rest

inductive DeclContextKind where
  | invalid | translationUnit | nameSpace | record | enum | function | prototype
  | templateParameter | block
  deriving DecidableEq

inductive DeclContextIndexKind where
  | ordinaryLatest | ordinaryValue | ordinaryCallable | ordinaryTypeName
  | ordinaryTemplateName | ordinaryNamespace | tag | label
  deriving DecidableEq

/-- A declaration context; its eight lookup indexes are a family. -/
structure DeclContext where
  kind : DeclContextKind := .invalid
  owner : EntityId := {}
  parent : DeclContextId := {}
  children : List DeclContextId := []
  bindings : List BindingId := []
  indexes : DeclContextIndexKind → KeyMap UInt64 BindingId := fun _ _ => none
  usingDirectives : List DeclContextId := []
  usingDirectiveOrigins : List ModuleAttachmentId := []
  isInlineNamespace : Bool := false
  loc : SrcLoc := 0

inductive LookupNamespace where
  | none | ordinary | tag | label
  deriving DecidableEq

structure Binding (Rest : Type) where
  name : NameId := {}
  context : DeclContextId := {}
  lookupNamespace : LookupNamespace := .ordinary
  entities : List EntityId := []
  entityGenerations : List UInt64 := []
  type : TypeRef := {}
  place : InstId := {}
  isTypeName : Bool := false
  isTemplateName : Bool := false
  isDefinition : Bool := false
  hasBlockScopeFunctionDeclaration : Bool := false
  generation : UInt64 := 0
  loc : SrcLoc := 0
  rest : Rest

structure PlaceFact (Rest : Type) where
  objectType : TypeRef := {}
  rest : Rest

structure CoroutineFact (Rest : Type) where
  function : EntityId := {}
  rest : Rest

inductive InstKind where
  | localPlace | globalPlace
  | other (kind : UInt16)
  deriving DecidableEq

structure OperandRange where
  first : UInt32 := 0
  count : UInt32 := 0

structure Inst (Rest : Type) where
  kind : InstKind := .other 0
  resultType : TypeId := {}
  placeFact : PlaceFactId := {}
  operands : OperandRange := {}
  rest : Rest

inductive OperandData where
  | none
  | value (inst : InstId)
  | type (ref : TypeRef)
  | entity (entity : EntityId)
  | name (name : NameId)
  | specific (specific : SpecificId)

structure Block (Terminator Rest : Type) where
  instructions : List InstId := []
  terminator : Terminator
  rest : Rest

@[reducible]
def Record (contents : Contents) : Table → Type
  | .names => String
  | .entities => Entity (contents.Rest .entities)
  | .declContexts => DeclContext
  | .bindings => Binding (contents.Rest .bindings)
  | .placeFacts => PlaceFact (contents.Rest .placeFacts)
  | .coroutineFacts => CoroutineFact (contents.Rest .coroutineFacts)
  | .insts => Inst (contents.Rest .insts)
  | .operands => OperandData
  | .blocks => Block contents.Terminator (contents.Rest .blocks)
  | table => contents.Rest table

structure RecordMethodFact (Rest : Type) where
  entity : EntityId := {}
  rest : Rest

/-- Facts that name the entity they are about. -/
structure OwnedFact (Rest : Type) where
  entity : EntityId := {}
  rest : Rest

structure RecordFacts (MethodRest Rest : Type) where
  entity : EntityId := {}
  methods : List (RecordMethodFact MethodRest) := []
  rest : Rest

@[reducible]
def Fact (contents : Contents) : FactMap → Type
  | .recordFacts => RecordFacts contents.MethodRest (contents.FactRest .recordFacts)
  | .objcInterfaceFacts => OwnedFact (contents.FactRest .objcInterfaceFacts)
  | .defaultedComparisonFacts => OwnedFact (contents.FactRest .defaultedComparisonFacts)
  | .structuredBindingFacts => OwnedFact (contents.FactRest .structuredBindingFacts)
  | .templateSpecializations => contents.FactRest .templateSpecializations

structure PreludeMark where
  entities : ℕ := 0
  declContexts : ℕ := 0
  bindings : ℕ := 0

structure ActiveModuleContext where
  unit : ModuleAttachmentId := {}
  fragment : ModuleFragment := .none
  exportDepth : UInt32 := 0

/-- The members of a file that a transaction copies as they are. -/
structure Settings where
  preludeMark : PreludeMark := {}
  activeModule : ActiveModuleContext := {}
  visibilityUnit : ModuleAttachmentId := {}
  visibleUnits : List Bool := []
  moduleRedeclaredEntities : List Bool := []
  importedDefinitionEntities : List Bool := []
  coroutinesLowered : Bool := false

/-- What a rollback has to bring back, types and value expressions apart. -/
structure Graph (contents : Contents) where
  rows : (table : Table) → List (Record contents table)
  facts : (map : FactMap) → KeyMap UInt64 (Fact contents map)
  nameIndex : KeyMap String NameId
  builtinTypes : KeyMap BuiltinTypeKind TypeId
  settings : Settings

/-- One change of a declaration context, with what is needed to take it back. -/
inductive DeclContextChange where
  | bindingAppended
  | childAppended
  | usingDirectiveAppended
  | indexAssigned (index : DeclContextIndexKind) (key : UInt64) (previous : Option BindingId)

structure DeclContextDelta where
  context : ℕ
  change : DeclContextChange

structure Transaction (contents : Contents) where
  id : TransactionId
  sizes : Table → ℕ
  settings : Settings
  errorsSize : ℕ
  notesSize : ℕ
  insertedNameKeys : List String := []
  insertedBuiltinTypeKeys : List BuiltinTypeKind := []
  saved : (table : Table) → List (ℕ × Record contents table) := fun _ => []
  declContextDeltas : List DeclContextDelta := []
  savedFacts : (map : FactMap) → List (UInt64 × Option (Fact contents map)) := fun _ => []

/-- Messages, of which the first ones are pinned. -/
structure Diagnostics where
  messages : List (SrcLoc × String) := []
  floor : ℕ := 0

structure File (contents : Contents) where
  graph : Graph contents
  generations : Table → List UInt32
  interned : Cir.File
  errors : Diagnostics
  notes : Diagnostics
  transactions : List (Transaction contents)
  nextTransactionId : TransactionId

section Rows

variable {contents : Contents}

/-- The record at index zero, which no valid id names. -/
def placeholder (contents : Contents) : (table : Table) → Record contents table
  | .names => ""
  | .entities => { rest := contents.rest .entities }
  | .declContexts => {}
  | .bindings => { rest := contents.rest .bindings }
  | .placeFacts => { rest := contents.rest .placeFacts }
  | .placeholderResultFacts => contents.rest .placeholderResultFacts
  | .constantStates => contents.rest .constantStates
  | .closureIdentities => contents.rest .closureIdentities
  | .switchFacts => contents.rest .switchFacts
  | .coroutineFacts => { rest := contents.rest .coroutineFacts }
  | .moduleUnits => contents.rest .moduleUnits
  | .insts => { rest := contents.rest .insts }
  | .payloads => contents.rest .payloads
  | .inlineAsmPayloads => contents.rest .inlineAsmPayloads
  | .operands => .none
  | .blocks => { terminator := contents.terminator, rest := contents.rest .blocks }
  | .functions => contents.rest .functions
  | .generics => contents.rest .generics
  | .specifics => contents.rest .specifics
  | .moduleAsm => contents.rest .moduleAsm
  | .warnings => contents.rest .warnings

/-- The tables that a new file gives a record at index zero. -/
def Table.startsFilled : Table → Bool
  | .coroutineFacts | .operands | .moduleAsm | .warnings => false
  | _ => true

def File.initial (contents : Contents) : File contents where
  graph :=
    { rows := fun table => if table.startsFilled then [placeholder contents table] else []
      facts := fun _ _ => none
      nameIndex := fun _ => none
      builtinTypes := fun _ => none
      settings := {} }
  generations table := if table.startsFilled then [0] else []
  interned := {}
  errors := {}
  notes := {}
  transactions := []
  nextTransactionId := 1

namespace Graph

def setRows (graph : Graph contents) (table : Table) (rows : List (Record contents table)) :
    Graph contents :=
  { graph with rows := update graph.rows table rows }

def setFact (graph : Graph contents) (map : FactMap) (key : UInt64)
    (fact : Fact contents map) : Graph contents :=
  { graph with
    facts := update graph.facts map
      (update (graph.facts map) key (some fact)) }

end Graph

namespace File

variable (file : File contents)

/-- The number of records of a table. -/
def size (table : Table) : ℕ := (file.graph.rows table).length

def valid (table : Table) (id : Id table) : Bool :=
  Generations.live (file.generations table) (file.size table) id

def entity (id : EntityId) : Record contents .entities :=
  if file.valid .entities id then
    (file.graph.rows .entities)[id.index.toNat]?.getD (placeholder contents .entities)
  else placeholder contents .entities

def declContext (id : DeclContextId) : DeclContext :=
  if file.valid .declContexts id then
    (file.graph.rows .declContexts)[id.index.toNat]?.getD {}
  else {}

def binding (id : BindingId) : Record contents .bindings :=
  if file.valid .bindings id then
    (file.graph.rows .bindings)[id.index.toNat]?.getD (placeholder contents .bindings)
  else placeholder contents .bindings

def operands (range : OperandRange) : List OperandData :=
  let stored := file.graph.rows .operands
  if range.count = 0 then []
  else if stored.length ≤ range.first.toNat ∨
      stored.length < (range.first + range.count).toNat then []
  else (stored.drop range.first.toNat).take range.count.toNat

/-- Changes the innermost open transaction. -/
def note (change : Transaction contents → Transaction contents) : File contents :=
  { file with transactions := file.transactions.modifyHead change }

def setRows (table : Table) (rows : List (Record contents table)) : File contents :=
  { file with graph := file.graph.setRows table rows }

def push (table : Table) (record : Record contents table) : File contents :=
  file.setRows table (file.graph.rows table ++ [record])

def addRecord (table : Table) (record : Record contents table) :
    Id table × File contents :=
  let id : Id table := Generations.handle (file.generations table) (file.size table)
  (id,
    { file.push table record with
      generations := update file.generations table
        (Generations.use (file.generations table) id.index.toNat) })

/-- Takes a copy of a record before it is written. -/
def recordMutation (table : Table) (slot : ℕ) : File contents :=
  file.note fun transaction =>
    { transaction with
      saved := update transaction.saved table
        (saveRow (transaction.sizes table) (file.graph.rows table) slot
          (transaction.saved table)) }

/-- Writes a record after a copy of it was taken. -/
def mutateAt (table : Table) (slot : ℕ)
    (change : Record contents table → Record contents table) : File contents :=
  (file.recordMutation table slot).setRows table ((file.graph.rows table).modify slot change)

/-- A write to the record of an id; an id that is not valid names a record outside
the tables. -/
def mutate (table : Table) (id : Id table)
    (change : Record contents table → Record contents table) : File contents :=
  if file.valid table id then file.mutateAt table id.index.toNat change else file

def recordFactMutation (map : FactMap) (key : UInt64) : File contents :=
  file.note fun transaction =>
    { transaction with
      savedFacts := update transaction.savedFacts map
        (saveKey (file.graph.facts map) key (transaction.savedFacts map)) }

def assignFact (map : FactMap) (key : UInt64) (fact : Fact contents map) : File contents :=
  let file := file.recordFactMutation map key
  { file with graph := file.graph.setFact map key fact }

def setSettings (settings : Settings) : File contents :=
  { file with graph := { file.graph with settings := settings } }

end File

end Rows

section Transactions

variable {contents : Contents}

/-- The list has exactly that many elements afterwards. -/
def resize {Element : Type} (filler : Element) (size : ℕ) (list : List Element) :
    List Element :=
  list.take size ++ List.replicate (size - list.length) filler

def undoChange (context : DeclContext) : DeclContextChange → DeclContext
  | .bindingAppended => { context with bindings := context.bindings.dropLast }
  | .childAppended => { context with children := context.children.dropLast }
  | .usingDirectiveAppended =>
    { context with
      usingDirectives := context.usingDirectives.dropLast
      usingDirectiveOrigins :=
        resize {} context.usingDirectives.dropLast.length context.usingDirectiveOrigins }
  | .indexAssigned index key previous =>
    { context with
      indexes := update context.indexes index
        (update (context.indexes index) key previous) }

/-- The changes of the contexts are taken back from the last to the first. -/
def undoDeltas (deltas : List DeclContextDelta) (contexts : List DeclContext) :
    List DeclContext :=
  deltas.foldr (fun delta contexts =>
    contexts.modify delta.context fun context => undoChange context delta.change) contexts

def undoTableDeltas (deltas : List DeclContextDelta) :
    (table : Table) → List (Record contents table) → List (Record contents table)
  | .declContexts, rows => undoDeltas deltas rows
  | _, rows => rows

namespace Transaction

/-- The graph after a rollback; no table is shorter than it was at the beginning, so
that resizing it cuts it off. -/
def undo (transaction : Transaction contents) (graph : Graph contents) : Graph contents where
  rows table :=
    (undoTableDeltas transaction.declContextDeltas table
      (restoreRows (transaction.saved table) (graph.rows table))).take (transaction.sizes table)
  facts map := restoreKeys (transaction.savedFacts map) (graph.facts map)
  nameIndex := eraseKeys transaction.insertedNameKeys graph.nameIndex
  builtinTypes := eraseKeys transaction.insertedBuiltinTypeKeys graph.builtinTypes
  settings := transaction.settings

/-- The transaction after one inside it was committed.  Copies are merged before
the deltas are looked at. -/
def mergeCommitted (parent child : Transaction contents) : Transaction contents :=
  let saved := fun table =>
    mergeSaved (fun slot => decide (slot < parent.sizes table)) (parent.saved table)
      (child.saved table)
  { parent with
    insertedNameKeys := parent.insertedNameKeys ++ child.insertedNameKeys
    insertedBuiltinTypeKeys :=
      parent.insertedBuiltinTypeKeys ++ child.insertedBuiltinTypeKeys
    saved := saved
    declContextDeltas := parent.declContextDeltas ++
      child.declContextDeltas.filter fun delta =>
        decide (delta.context < parent.sizes .declContexts) &&
          !isSaved (saved .declContexts) delta.context
    savedFacts := fun map =>
      mergeSaved (fun _ => true) (parent.savedFacts map) (child.savedFacts map) }

end Transaction

/-- Pinned messages survive a rollback. -/
def Diagnostics.rollback (diagnostics : Diagnostics) (size : ℕ) : Diagnostics :=
  { diagnostics with messages := diagnostics.messages.take (max size diagnostics.floor) }

def Diagnostics.add (diagnostics : Diagnostics) (message : SrcLoc × String) : Diagnostics :=
  { diagnostics with messages := diagnostics.messages ++ [message] }

def Diagnostics.pin (diagnostics : Diagnostics) : Diagnostics :=
  { diagnostics with floor := diagnostics.messages.length }

namespace File

variable (file : File contents)

def beginTransaction : TransactionId × File contents :=
  let transaction : Transaction contents :=
    { id := file.nextTransactionId
      sizes := file.size
      settings := file.graph.settings
      errorsSize := file.errors.messages.length
      notesSize := file.notes.messages.length }
  (transaction.id,
    { file with
      transactions := transaction :: file.transactions
      interned := file.interned.beginTransaction
      nextTransactionId :=
        if file.nextTransactionId + 1 = 0 then 1 else file.nextTransactionId + 1 })

def mergeCommittedTransaction (child : Transaction contents) :
    List (Transaction contents) → List (Transaction contents)
  | [] => []
  | parent :: rest => parent.mergeCommitted child :: rest

def commitTransaction (id : TransactionId) : File contents :=
  match file.transactions with
  | [] => file
  | transaction :: rest =>
    if transaction.id = id then
      { file with
        transactions := mergeCommittedTransaction transaction rest
        interned := file.interned.commitTransaction }
    else file

def rollbackTransaction (id : TransactionId) : File contents :=
  match file.transactions with
  | [] => file
  | transaction :: rest =>
    if transaction.id = id then
      { file with
        graph := transaction.undo file.graph
        transactions := rest
        interned := file.interned.rollbackTransaction
        errors := file.errors.rollback transaction.errorsSize
        notes := file.notes.rollback transaction.notesSize }
    else file

end File

end Transactions

end Aburi.Cir.Full
