import Aburi.Cir.StructuralEqualitySound

/-!
# Interning in a CIR file

The tables of types and of value expressions of a file, the operations that
intern into them and the transactions that take records back.  Transactions are
a stack with the innermost on top; what a transaction notes for other tables is
left out.
-/

namespace Aburi.Cir

open Aburi.Lib (Handle HashEntry Generations.handle Generations.use Generations.live)

structure Transaction where
  typesSize : ℕ
  typePayloadsSize : ℕ
  valueExpressionsSize : ℕ
  insertedTypeEntries : List (HashEntry TypeTag) := []
  insertedValueExpressionEntries : List (HashEntry ValueExprTag) := []

structure File where
  types : List CirType := [{}]
  typeGenerations : List UInt32 := [0]
  typePayloads : List TypePayload := [.invalid]
  typeIndex : List (HashEntry TypeTag) := []
  valueExpressions : List TemplateValueExpression := [.empty]
  valueExpressionGenerations : List UInt32 := [0]
  valueExpressionIndex : List (HashEntry ValueExprTag) := []
  transactions : List Transaction := []

namespace File

def validType (file : File) (id : TypeId) : Bool :=
  Generations.live file.typeGenerations file.types.length id

def validValueExpression (file : File) (id : ValueExprId) : Bool :=
  Generations.live file.valueExpressionGenerations file.valueExpressions.length id

/-- The id that the next new type is given. -/
def nextTypeId (file : File) : TypeId :=
  Generations.handle file.typeGenerations file.types.length

def nextValueExprId (file : File) : ValueExprId :=
  Generations.handle file.valueExpressionGenerations file.valueExpressions.length

section Types

variable (stringHash : String → UInt64)

/-- The stored type was interned from this specification. -/
def typeMatches (file : File) (spec : TypeSpec) (id : TypeId) : Bool :=
  file.validType id &&
    match file.types[id.index.toNat]? with
    | none => false
    | some candidate =>
      candidate.payloadIndex != 0 &&
        match file.typePayloads[candidate.payloadIndex.toNat]? with
        | none => false
        | some payload =>
          candidate.kind == spec.kind && payloadFieldsEqual spec.payload payload &&
            -- a type without a canonical link is stored as its own canonical type
            sameLink spec.canonical
              (if candidate.canonical = id then {} else candidate.canonical) &&
            sameLink spec.desugared candidate.desugared &&
            sameLink spec.resolved candidate.resolved

def noteTypeEntry (entry : HashEntry TypeTag) : List Transaction → List Transaction
  | [] => []
  | transaction :: rest =>
    { transaction with
      insertedTypeEntries := transaction.insertedTypeEntries ++ [entry] } :: rest

/-- The record of a new type; its payload is stored after those that are there. -/
def newType (file : File) (spec : TypeSpec) : CirType where
  kind := spec.kind
  payloadIndex := UInt32.ofNat file.typePayloads.length
  canonical := if spec.canonical.valid then spec.canonical else file.nextTypeId
  desugared := spec.desugared
  resolved := spec.resolved
  dependency := spec.dependency
  debugName := spec.debugName

def addType (file : File) (hash : UInt64) (spec : TypeSpec) : TypeId × File :=
  let id := file.nextTypeId
  (id,
    { file with
      types := file.types ++ [file.newType spec]
      typeGenerations := Generations.use file.typeGenerations id.index.toNat
      typePayloads := file.typePayloads ++ [spec.payload]
      typeIndex := file.typeIndex ++ [(hash, id)]
      transactions := noteTypeEntry (hash, id) file.transactions })

def internType (file : File) (spec : TypeSpec) : TypeId × File :=
  if typeSpecMatchesPayload spec then
    let hash := typeSpecHash stringHash spec
    let candidates := file.typeIndex.filter fun entry => entry.1 == hash
    match candidates.find? fun entry => file.typeMatches spec entry.2 with
    | some entry => (entry.2, file)
    | none => file.addType hash spec
  else ({}, file)

end Types

section ValueExpressions

variable (stringHash : String → UInt64)

/-- The expression remembers the id of a stored expression that it is equal to. -/
def isCanonical (file : File) (expression : TemplateValueExpression) : Bool :=
  file.validValueExpression expression.canonicalId &&
    match file.valueExpressions[expression.canonicalId.index.toNat]? with
    | none => false
    | some canonical => templateValueExprsStructurallyEqual canonical expression

def valueExpressionMatches (file : File) (expression : TemplateValueExpression)
    (id : ValueExprId) : Bool :=
  file.validValueExpression id &&
    match file.valueExpressions[id.index.toNat]? with
    | none => false
    | some stored => templateValueExprsStructurallyEqual stored expression

def noteValueExpressionEntry (entry : HashEntry ValueExprTag) :
    List Transaction → List Transaction
  | [] => []
  | transaction :: rest =>
    { transaction with
      insertedValueExpressionEntries :=
        transaction.insertedValueExpressionEntries ++ [entry] } :: rest

def addValueExpression (file : File) (hash : UInt64) (expression : TemplateValueExpression) :
    ValueExprId × File :=
  let id := file.nextValueExprId
  (id,
    { file with
      valueExpressions := file.valueExpressions ++ [expression.withCanonicalId id]
      valueExpressionGenerations :=
        Generations.use file.valueExpressionGenerations id.index.toNat
      valueExpressionIndex := file.valueExpressionIndex ++ [(hash, id)]
      transactions := noteValueExpressionEntry (hash, id) file.transactions })

/-- The part of the interning that follows once the arguments in the nodes are canonical. -/
def internCanonicalized (file : File) (expression : TemplateValueExpression) :
    ValueExprId × File :=
  if file.isCanonical expression then (expression.canonicalId, file)
  else
    let expression := expression.withCanonicalId {}
    let hash := templateValueExpressionStructuralHash stringHash expression
    let candidates := file.valueExpressionIndex.filter fun entry => entry.1 == hash
    match candidates.find? fun entry => file.valueExpressionMatches expression entry.2 with
    | some entry => (entry.2, file)
    | none => file.addValueExpression hash expression

end ValueExpressions

end File

section Canonicalization

variable (stringHash : String → UInt64)

mutual

def canonicalizeTemplateArgumentValueExpressions :
    TemplateArgument → File → TemplateArgument × File
  | .mk fields elements valueExpr countExpr alternative, file =>
    let elements := canonicalizeTemplateArguments elements file
    let alternative := canonicalizeAlternative alternative elements.2
    let valueExpr := canonicalizeTemplateValueExpression valueExpr alternative.2
    let countExpr := canonicalizeTemplateValueExpression countExpr valueExpr.2
    (.mk fields elements.1 valueExpr.1 countExpr.1 alternative.1, countExpr.2)
termination_by structural argument => argument

def canonicalizeTemplateArguments :
    List TemplateArgument → File → List TemplateArgument × File
  | [], file => ([], file)
  | argument :: rest, file =>
    let argument := canonicalizeTemplateArgumentValueExpressions argument file
    let rest := canonicalizeTemplateArguments rest argument.2
    (argument.1 :: rest.1, rest.2)
termination_by structural arguments => arguments

def canonicalizeAlternative : Option TemplateArgument → File → Option TemplateArgument × File
  | none, file => (none, file)
  | some argument, file =>
    let argument := canonicalizeTemplateArgumentValueExpressions argument file
    (some argument.1, argument.2)
termination_by structural alternative => alternative

-- The source hands the expression to `intern_template_value_expression` here,
-- which walks the nodes once more: `canonicalizeTemplateValueExpression_eq`.
def canonicalizeTemplateValueExpression :
    TemplateValueExpression → File → TemplateValueExpression × File
  | .mk nodes root canonicalId, file =>
    if (TemplateValueExpression.mk nodes root canonicalId).valid then
      let nodes := canonicalizeTemplateValueExprNodes nodes file
      let interned := nodes.2.internCanonicalized stringHash (.mk nodes.1 root canonicalId)
      (.mk nodes.1 root interned.1, interned.2)
    else (.mk nodes root {}, file)
termination_by structural expression => expression

def canonicalizeTemplateValueExprNodes :
    List TemplateValueExprNode → File → List TemplateValueExprNode × File
  | [], file => ([], file)
  | node :: rest, file =>
    let node := canonicalizeTemplateValueExprNode node file
    let rest := canonicalizeTemplateValueExprNodes rest node.2
    (node.1 :: rest.1, rest.2)
termination_by structural nodes => nodes

def canonicalizeTemplateValueExprNode :
    TemplateValueExprNode → File → TemplateValueExprNode × File
  | .mk fields arguments, file =>
    let arguments := canonicalizeTemplateArguments arguments file
    (.mk fields arguments.1, arguments.2)
termination_by structural node => node

end

namespace File

def internTemplateValueExpression (file : File) (expression : TemplateValueExpression) :
    ValueExprId × File :=
  if expression.valid then
    let nodes := canonicalizeTemplateValueExprNodes stringHash expression.nodes file
    nodes.2.internCanonicalized stringHash (.mk nodes.1 expression.root expression.canonicalId)
  else ({}, file)

def beginTransaction (file : File) : File :=
  { file with
    transactions :=
      { typesSize := file.types.length
        typePayloadsSize := file.typePayloads.length
        valueExpressionsSize := file.valueExpressions.length } :: file.transactions }

/-- What the innermost transaction inserted goes to the transaction around it. -/
def mergeCommittedTransaction : List Transaction → List Transaction
  | [] => []
  | [_] => []
  | transaction :: parent :: rest =>
    { parent with
      insertedTypeEntries := parent.insertedTypeEntries ++ transaction.insertedTypeEntries
      insertedValueExpressionEntries :=
        parent.insertedValueExpressionEntries ++
          transaction.insertedValueExpressionEntries } :: rest

def commitTransaction (file : File) : File :=
  { file with transactions := mergeCommittedTransaction file.transactions }

def rollbackTransaction (file : File) : File :=
  match file.transactions with
  | [] => file
  | transaction :: rest =>
    { file with
      types := file.types.take transaction.typesSize
      typePayloads := file.typePayloads.take transaction.typePayloadsSize
      typeIndex := transaction.insertedTypeEntries.foldl List.erase file.typeIndex
      valueExpressions := file.valueExpressions.take transaction.valueExpressionsSize
      valueExpressionIndex :=
        transaction.insertedValueExpressionEntries.foldl List.erase file.valueExpressionIndex
      transactions := rest }

end File

/-- The calls that change the two tables. -/
inductive InternCall where
  | internType (spec : TypeSpec)
  | internTemplateValueExpression (expression : TemplateValueExpression)
  | beginTransaction
  | commitTransaction
  | rollbackTransaction

def File.call (file : File) : InternCall → File
  | .internType spec => (file.internType stringHash spec).2
  | .internTemplateValueExpression expression =>
    (file.internTemplateValueExpression stringHash expression).2
  | .beginTransaction => file.beginTransaction
  | .commitTransaction => file.commitTransaction
  | .rollbackTransaction => file.rollbackTransaction

/-- Every record has an index of 32 bits. -/
def File.Fits (file : File) : Prop :=
  file.types.length ≤ 2 ^ 32 ∧ file.valueExpressions.length ≤ 2 ^ 32

/-- The canonical link of a specification is not the id that it is itself about to get. -/
def File.Admits (file : File) : InternCall → Prop
  | .internType spec => spec.canonical ≠ file.nextTypeId
  | _ => True

/-- One call after which the records still have indices. -/
def File.Steps (file next : File) : Prop :=
  ∃ call, file.Admits call ∧ next = file.call stringHash call ∧ next.Fits

inductive Reachable : File → Prop
  | start : Reachable {}
  | step {file next : File} : Reachable file → file.Steps stringHash next → Reachable next

/-- Calls during which a predicate of files holds throughout. -/
inductive RunsWhile (holds : File → Prop) : File → File → Prop
  | stay (file : File) : RunsWhile holds file file
  | step {first middle last : File} : RunsWhile holds first middle →
      middle.Steps stringHash last → holds last → RunsWhile holds first last

end Canonicalization

end Aburi.Cir
