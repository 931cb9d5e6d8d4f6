import Aburi.Cir.InternTypeSound

/-!
# The table of value expressions as a hash-consing table

Interning an expression first gives the expressions nested in its template
arguments their canonical ids.  That only adds records to the table and does not
change what the expression says, so that the whole call is a sequence of
internings of the hash-consing table.
-/

namespace Aburi.Cir

open Aburi.Lib (Handle HashEntry Mark HashCons Generations.toNat_index
  Generations.index_ne_zero Generations.toNat_pos Generations.live_iff)

theorem valueExprsEqual_refl (expression : TemplateValueExpression) :
    templateValueExprsStructurallyEqual expression expression = true :=
  (templateValueExprs_equal_iff _ _).mpr rfl

theorem valueExprsEqual_symm (lhs rhs : TemplateValueExpression)
    (equal : templateValueExprsStructurallyEqual lhs rhs = true) :
    templateValueExprsStructurallyEqual rhs lhs = true :=
  (templateValueExprs_equal_iff _ _).mpr ((templateValueExprs_equal_iff _ _).mp equal).symm

theorem valueExprsEqual_trans (first second third : TemplateValueExpression)
    (equal : templateValueExprsStructurallyEqual first second = true)
    (equal' : templateValueExprsStructurallyEqual second third = true) :
    templateValueExprsStructurallyEqual first third = true :=
  (templateValueExprs_equal_iff _ _).mpr
    (((templateValueExprs_equal_iff _ _).mp equal).trans
      ((templateValueExprs_equal_iff _ _).mp equal'))

abbrev ValueExprTable := HashCons TemplateValueExpression ValueExprTag

def Transaction.valueExprMark (transaction : Transaction) : Mark ValueExprTag :=
  ⟨transaction.valueExpressionsSize, transaction.insertedValueExpressionEntries⟩

def File.valueExprTable (file : File) : ValueExprTable where
  keys := file.valueExpressions
  generations := file.valueExpressionGenerations
  index := file.valueExpressionIndex
  marks := file.transactions.map Transaction.valueExprMark

/-- What a transaction notes about the tables of types. -/
def Transaction.typePart (transaction : Transaction) : ℕ × ℕ × List (HashEntry TypeTag) :=
  (transaction.typesSize, transaction.typePayloadsSize, transaction.insertedTypeEntries)

def File.SameTypes (first last : File) : Prop :=
  last.types = first.types ∧ last.typeGenerations = first.typeGenerations ∧
    last.typePayloads = first.typePayloads ∧ last.typeIndex = first.typeIndex ∧
    last.transactions.map Transaction.typePart = first.transactions.map Transaction.typePart

theorem TypesRepresented.congr {first last : File} {table : TypeTable}
    (represented : TypesRepresented first table) (same : first.SameTypes last) :
    TypesRepresented last table := by
  obtain ⟨types, generations, payloads, index, transactions⟩ := same
  have marks : last.transactions.map Transaction.typeMark =
      first.transactions.map Transaction.typeMark := by
    have := congrArg (List.map fun part : ℕ × ℕ × List (HashEntry TypeTag) =>
      (⟨part.1, part.2.2⟩ : Mark TypeTag)) transactions
    rw [List.map_map, List.map_map] at this
    exact this
  refine ⟨?_, ?_, ?_, ?_, ?_, ?_, ?_⟩
  · rw [generations, represented.generations]
  · rw [index, represented.index]
  · rw [marks, represented.marks]
  · rw [types, represented.length]
  · rw [payloads, represented.payloadsLength]
  · intro transaction member
    have : transaction.typePart ∈ first.transactions.map Transaction.typePart := by
      rw [← transactions]
      exact List.mem_map_of_mem member
    obtain ⟨original, originalMember, parts⟩ := List.mem_map.mp this
    have sizes := represented.payloadsSize original originalMember
    simp only [Transaction.typePart, Prod.mk.injEq] at parts
    rw [← parts.1, ← parts.2.1, sizes]
  · intro slot spec positive found
    have stores := represented.stored slot spec positive found
    simpa only [File.StoresType, types, generations, payloads] using stores

section Interning

variable (stringHash : String → UInt64)

/-- The table of value expressions of the file is sound. -/
def File.ExprsSound (file : File) : Prop :=
  file.valueExprTable.Sound (templateValueExpressionStructuralHash stringHash)
    templateValueExprsStructurallyEqual

theorem structuralHash_withCanonicalId (expression : TemplateValueExpression)
    (id : ValueExprId) :
    templateValueExpressionStructuralHash stringHash (expression.withCanonicalId id) =
      templateValueExpressionStructuralHash stringHash expression := by
  cases expression
  rfl

theorem structurallyEqual_withCanonicalId (stored expression : TemplateValueExpression)
    (id : ValueExprId) :
    templateValueExprsStructurallyEqual stored (expression.withCanonicalId id) =
      templateValueExprsStructurallyEqual stored expression := by
  cases stored
  cases expression
  rfl

theorem withCanonicalId_twice (expression : TemplateValueExpression) (id id' : ValueExprId) :
    (expression.withCanonicalId id).withCanonicalId id' = expression.withCanonicalId id' := by
  cases expression
  rfl

variable {file : File}

theorem valueExpressionMatches_eq (file : File) (expression : TemplateValueExpression)
    (id id' : ValueExprId) (entry : HashEntry ValueExprTag) :
    file.valueExpressionMatches (expression.withCanonicalId id) entry.2 =
      file.valueExprTable.matching templateValueExprsStructurallyEqual
        (expression.withCanonicalId id') entry := by
  rw [File.valueExpressionMatches, HashCons.matching, HashCons.keyAt]
  simp only [structurallyEqual_withCanonicalId]
  cases alive : file.validValueExpression entry.2
  · have dead : Aburi.Lib.Generations.live file.valueExprTable.generations
        file.valueExprTable.keys.length entry.2 = false := alive
    simp [dead]
  · have live : Aburi.Lib.Generations.live file.valueExprTable.generations
        file.valueExprTable.keys.length entry.2 = true := alive
    simp only [live, Bool.true_and, if_true]
    have keys : file.valueExprTable.keys = file.valueExpressions := rfl
    rw [keys]
    cases file.valueExpressions[entry.2.index.toNat]? <;> rfl

/-- An expression that knows its canonical id is stored under it. -/
theorem keyAt_of_isCanonical {expression : TemplateValueExpression}
    (canonical : file.isCanonical expression = true) :
    ∃ stored, file.valueExprTable.keyAt expression.canonicalId = some stored ∧
      templateValueExprsStructurallyEqual stored expression = true := by
  rw [File.isCanonical, Bool.and_eq_true] at canonical
  obtain ⟨alive, equal⟩ := canonical
  have live : Aburi.Lib.Generations.live file.valueExprTable.generations
      file.valueExprTable.keys.length expression.canonicalId = true := alive
  split at equal
  case h_1 => exact absurd equal Bool.false_ne_true
  case h_2 stored found => exact ⟨stored, by rw [HashCons.keyAt, if_pos live]; exact found, equal⟩

theorem noteValueExpressionEntry_mark (entry : HashEntry ValueExprTag)
    (transactions : List Transaction) :
    (File.noteValueExpressionEntry entry transactions).map Transaction.valueExprMark =
      HashCons.note entry (transactions.map Transaction.valueExprMark) := by
  cases transactions <;> rfl

theorem noteValueExpressionEntry_typePart (entry : HashEntry ValueExprTag)
    (transactions : List Transaction) :
    (File.noteValueExpressionEntry entry transactions).map Transaction.typePart =
      transactions.map Transaction.typePart := by
  cases transactions <;> rfl

/-- What the call does is the interning of the expression with the id it would be given. -/
theorem internCanonicalized_eq (sound : file.ExprsSound stringHash)
    (expression : TemplateValueExpression) :
    (file.internCanonicalized stringHash expression).1 =
        (file.valueExprTable.intern (templateValueExpressionStructuralHash stringHash)
          templateValueExprsStructurallyEqual
          (expression.withCanonicalId file.nextValueExprId)).1 ∧
      (file.internCanonicalized stringHash expression).2.valueExprTable =
        (file.valueExprTable.intern (templateValueExpressionStructuralHash stringHash)
          templateValueExprsStructurallyEqual
          (expression.withCanonicalId file.nextValueExprId)).2 := by
  have searches : (file.valueExpressionIndex.filter fun entry =>
      entry.1 == templateValueExpressionStructuralHash stringHash
        (expression.withCanonicalId {})).find?
        (fun entry => file.valueExpressionMatches (expression.withCanonicalId {}) entry.2) =
      file.valueExprTable.lookup (templateValueExpressionStructuralHash stringHash)
        templateValueExprsStructurallyEqual
        (expression.withCanonicalId file.nextValueExprId) := by
    rw [HashCons.lookup]
    simp only [structuralHash_withCanonicalId]
    congr 1
    funext entry
    exact valueExpressionMatches_eq file expression {} file.nextValueExprId entry
  rw [File.internCanonicalized, HashCons.intern]
  split
  case isTrue canonical =>
    obtain ⟨stored, named, equal⟩ := keyAt_of_isCanonical canonical
    split
    case h_1 entry found =>
      obtain ⟨other, otherNamed, otherEqual⟩ := HashCons.Sound.lookup_eq_some found
      rw [structurallyEqual_withCanonicalId] at otherEqual
      refine ⟨?_, rfl⟩
      rw [sound.handle_eq_iff valueExprsEqual_refl valueExprsEqual_symm named otherNamed]
      exact valueExprsEqual_trans _ _ _ equal (valueExprsEqual_symm _ _ otherEqual)
    case h_2 missing =>
      have differs := sound.lookup_eq_none
        (fun _ _ => templateValueExpressionStructuralHash_congr stringHash) missing named
      rw [structurallyEqual_withCanonicalId, equal] at differs
      exact absurd differs.symm Bool.false_ne_true
  case isFalse =>
    simp only [searches]
    cases file.valueExprTable.lookup (templateValueExpressionStructuralHash stringHash)
      templateValueExprsStructurallyEqual (expression.withCanonicalId file.nextValueExprId) with
    | some entry => exact ⟨rfl, rfl⟩
    | none =>
      refine ⟨rfl, ?_⟩
      simp only [File.addValueExpression, File.valueExprTable, HashCons.add,
        withCanonicalId_twice, structuralHash_withCanonicalId, noteValueExpressionEntry_mark]
      rfl

/-- The last file has the types of the first one, and more value expressions. -/
structure File.Grows (first last : File) : Prop where
  types : first.SameTypes last
  length : first.valueExpressions.length ≤ last.valueExpressions.length
  sound : last.valueExpressions.length ≤ 2 ^ 32 → first.ExprsSound stringHash →
    last.ExprsSound stringHash ∧ ∀ id stored, first.valueExprTable.keyAt id = some stored →
      last.valueExprTable.keyAt id = some stored

theorem File.Grows.refl (file : File) : file.Grows stringHash file :=
  ⟨⟨rfl, rfl, rfl, rfl, rfl⟩, le_refl _, fun _ sound => ⟨sound, fun _ _ found => found⟩⟩

theorem File.Grows.trans {first middle last : File} (start : first.Grows stringHash middle)
    (finish : middle.Grows stringHash last) : first.Grows stringHash last := by
  obtain ⟨types, generations, payloads, index, transactions⟩ := start.types
  obtain ⟨types', generations', payloads', index', transactions'⟩ := finish.types
  refine ⟨⟨types'.trans types, generations'.trans generations, payloads'.trans payloads,
    index'.trans index, transactions'.trans transactions⟩,
    le_trans start.length finish.length, ?_⟩
  intro fits sound
  obtain ⟨middleSound, kept⟩ := start.sound (le_trans finish.length fits) sound
  obtain ⟨lastSound, kept'⟩ := finish.sound fits middleSound
  exact ⟨lastSound, fun id stored found => kept' id stored (kept id stored found)⟩

theorem internCanonicalized_grows (file : File) (expression : TemplateValueExpression) :
    file.Grows stringHash (file.internCanonicalized stringHash expression).2 := by
  refine ⟨?_, ?_, ?_⟩
  · simp only [File.internCanonicalized]
    split
    · exact ⟨rfl, rfl, rfl, rfl, rfl⟩
    · split
      · exact ⟨rfl, rfl, rfl, rfl, rfl⟩
      · exact ⟨rfl, rfl, rfl, rfl, noteValueExpressionEntry_typePart _ _⟩
  · simp only [File.internCanonicalized]
    split
    · exact le_refl _
    · split
      · exact le_refl _
      · simp [File.addValueExpression]
  · intro fits sound
    have afterwards := (internCanonicalized_eq stringHash sound expression).2
    have fits' : (file.internCanonicalized stringHash expression).2.valueExprTable.keys.length ≤
        2 ^ 32 := fits
    rw [afterwards] at fits'
    rw [File.ExprsSound, afterwards]
    refine ⟨HashCons.intern_sound _ _ sound
      (fun _ _ => templateValueExpressionStructuralHash_congr stringHash) fits', ?_⟩
    intro id stored found
    exact HashCons.intern_keyAt_of_some _ _ sound fits' found

/-- A relation between files that every single interning respects. -/
structure File.WalkRelation (related : File → File → Prop) : Prop where
  refl : ∀ file, related file file
  trans : ∀ {first middle last}, related first middle → related middle last → related first last
  step : ∀ file expression, related file (file.internCanonicalized stringHash expression).2

namespace File.WalkRelation

variable {stringHash} {related : File → File → Prop}

mutual

theorem argument (walk : WalkRelation stringHash related) (argument : TemplateArgument)
    (file : File) :
    related file (canonicalizeTemplateArgumentValueExpressions stringHash argument file).2 := by
  cases argument with
  | mk fields elements valueExpr countExpr alternative =>
    rw [canonicalizeTemplateArgumentValueExpressions]
    apply walk.trans (walk.arguments elements file)
    apply walk.trans (walk.alternative alternative _)
    apply walk.trans (walk.expression valueExpr _)
    exact walk.expression countExpr _

theorem arguments (walk : WalkRelation stringHash related) (arguments : List TemplateArgument)
    (file : File) : related file (canonicalizeTemplateArguments stringHash arguments file).2 := by
  cases arguments with
  | nil => exact walk.refl file
  | cons argument rest =>
    rw [canonicalizeTemplateArguments]
    exact walk.trans (walk.argument argument file) (walk.arguments rest _)

theorem alternative (walk : WalkRelation stringHash related)
    (alternative : Option TemplateArgument) (file : File) :
    related file (canonicalizeAlternative stringHash alternative file).2 := by
  cases alternative with
  | none => exact walk.refl file
  | some argument =>
    rw [canonicalizeAlternative]
    exact walk.argument argument file

theorem expression (walk : WalkRelation stringHash related)
    (expression : TemplateValueExpression) (file : File) :
    related file (canonicalizeTemplateValueExpression stringHash expression file).2 := by
  cases expression with
  | mk nodes root canonicalId =>
    rw [canonicalizeTemplateValueExpression]
    split
    · exact walk.trans (walk.nodes nodes file) (walk.step _ _)
    · exact walk.refl file

theorem nodes (walk : WalkRelation stringHash related) (nodes : List TemplateValueExprNode)
    (file : File) :
    related file (canonicalizeTemplateValueExprNodes stringHash nodes file).2 := by
  cases nodes with
  | nil => exact walk.refl file
  | cons node rest =>
    rw [canonicalizeTemplateValueExprNodes]
    exact walk.trans (walk.node node file) (walk.nodes rest _)

theorem node (walk : WalkRelation stringHash related) (node : TemplateValueExprNode)
    (file : File) :
    related file (canonicalizeTemplateValueExprNode stringHash node file).2 := by
  cases node with
  | mk fields arguments =>
    rw [canonicalizeTemplateValueExprNode]
    exact walk.arguments arguments file

end

theorem internTemplateValueExpression (walk : WalkRelation stringHash related) (file : File)
    (expression : TemplateValueExpression) :
    related file (file.internTemplateValueExpression stringHash expression).2 := by
  rw [File.internTemplateValueExpression]
  split
  · exact walk.trans (walk.nodes expression.nodes file) (walk.step _ _)
  · exact walk.refl file

end File.WalkRelation

theorem grows_walk : File.WalkRelation stringHash (File.Grows stringHash) where
  refl := .refl stringHash
  trans start finish := start.trans stringHash finish
  step := internCanonicalized_grows stringHash

variable (fieldsForm : TemplateArgumentFields → TemplateArgumentFields)

mutual

theorem canonicalizeArgument_form (argument : TemplateArgument) (file : File) :
    (canonicalizeTemplateArgumentValueExpressions stringHash argument file).1.form fieldsForm =
      argument.form fieldsForm := by
  cases argument with
  | mk fields elements valueExpr countExpr alternative =>
    simp only [canonicalizeTemplateArgumentValueExpressions, TemplateArgument.form,
      canonicalizeArguments_form elements file, canonicalizeExpression_form valueExpr,
      canonicalizeExpression_form countExpr]

theorem canonicalizeArguments_form (arguments : List TemplateArgument) (file : File) :
    templateArgumentsForm fieldsForm (canonicalizeTemplateArguments stringHash arguments file).1 =
      templateArgumentsForm fieldsForm arguments := by
  cases arguments with
  | nil => rfl
  | cons argument rest =>
    simp only [canonicalizeTemplateArguments, templateArgumentsForm,
      canonicalizeArgument_form argument file, canonicalizeArguments_form rest]

theorem canonicalizeExpression_form (expression : TemplateValueExpression) (file : File) :
    (canonicalizeTemplateValueExpression stringHash expression file).1.form fieldsForm =
      expression.form fieldsForm := by
  cases expression with
  | mk nodes root canonicalId =>
    rw [canonicalizeTemplateValueExpression]
    split
    · simp only [TemplateValueExpression.form, canonicalizeNodes_form nodes file]
    · rfl

theorem canonicalizeNodes_form (nodes : List TemplateValueExprNode) (file : File) :
    templateValueExprNodesForm fieldsForm
        (canonicalizeTemplateValueExprNodes stringHash nodes file).1 =
      templateValueExprNodesForm fieldsForm nodes := by
  cases nodes with
  | nil => rfl
  | cons node rest =>
    simp only [canonicalizeTemplateValueExprNodes, templateValueExprNodesForm,
      canonicalizeNode_form node file, canonicalizeNodes_form rest]

theorem canonicalizeNode_form (node : TemplateValueExprNode) (file : File) :
    (canonicalizeTemplateValueExprNode stringHash node file).1.form fieldsForm =
      node.form fieldsForm := by
  cases node with
  | mk fields arguments =>
    simp only [canonicalizeTemplateValueExprNode, TemplateValueExprNode.form,
      canonicalizeArguments_form arguments file]

end

theorem internTemplateValueExpression_grows (file : File)
    (expression : TemplateValueExpression) :
    file.Grows stringHash (file.internTemplateValueExpression stringHash expression).2 :=
  (grows_walk stringHash).internTemplateValueExpression file expression

/-- The id that is returned names an expression that compares equal. -/
theorem internTemplateValueExpression_keyAt (sound : file.ExprsSound stringHash)
    {expression : TemplateValueExpression} (valid : expression.valid = true)
    (fits : (file.internTemplateValueExpression stringHash
      expression).2.valueExpressions.length ≤ 2 ^ 32) :
    ∃ stored,
      (file.internTemplateValueExpression stringHash expression).2.valueExprTable.keyAt
          (file.internTemplateValueExpression stringHash expression).1 = some stored ∧
        templateValueExprsStructurallyEqual stored expression = true := by
  rw [File.internTemplateValueExpression, if_pos valid] at fits ⊢
  have nested := (grows_walk stringHash).nodes expression.nodes file
  have forms := canonicalizeNodes_form stringHash TemplateArgumentFields.comparedForm
    expression.nodes file
  revert nested forms fits
  generalize canonicalizeTemplateValueExprNodes stringHash expression.nodes file = nodes
  intro fits nested forms
  have grows := internCanonicalized_grows stringHash nodes.2
    (.mk nodes.1 expression.root expression.canonicalId)
  have middleSound := (nested.sound (le_trans grows.length fits) sound).1
  obtain ⟨sameId, sameTable⟩ := internCanonicalized_eq stringHash middleSound
    (.mk nodes.1 expression.root expression.canonicalId)
  have room : (nodes.2.internCanonicalized stringHash
      (.mk nodes.1 expression.root expression.canonicalId)).2.valueExprTable.keys.length ≤
        2 ^ 32 := fits
  rw [sameTable] at room
  obtain ⟨stored, named, equal⟩ := HashCons.intern_keyAt _ _ middleSound valueExprsEqual_refl room
  refine ⟨stored, ?_, ?_⟩
  · rw [sameId, sameTable]
    exact named
  · rw [structurallyEqual_withCanonicalId] at equal
    apply valueExprsEqual_trans _ _ _ equal
    rw [templateValueExprs_equal_iff]
    cases expression
    simp only [TemplateValueExpression.form]
    rw [show templateValueExprNodesForm TemplateArgumentFields.comparedForm nodes.1 = _ from forms]
    rfl

/-- Interning returns the name of a stored expression exactly when it compares equal to it. -/
theorem internTemplateValueExpression_eq_iff (sound : file.ExprsSound stringHash)
    {expression stored : TemplateValueExpression} (valid : expression.valid = true)
    (fits : (file.internTemplateValueExpression stringHash
      expression).2.valueExpressions.length ≤ 2 ^ 32)
    {id : ValueExprId} (named : file.valueExprTable.keyAt id = some stored) :
    (file.internTemplateValueExpression stringHash expression).1 = id ↔
      templateValueExprsStructurallyEqual stored expression = true := by
  have grows := internTemplateValueExpression_grows stringHash file expression
  obtain ⟨afterwards, kept⟩ := grows.sound fits sound
  obtain ⟨found, foundNamed, equal⟩ :=
    internTemplateValueExpression_keyAt stringHash sound valid fits
  rw [afterwards.handle_eq_iff valueExprsEqual_refl valueExprsEqual_symm foundNamed
    (kept id stored named)]
  constructor
  · intro same
    exact valueExprsEqual_trans _ _ _ (valueExprsEqual_symm _ _ same) equal
  · intro same
    exact valueExprsEqual_trans _ _ _ equal (valueExprsEqual_symm _ _ same)

end Interning

end Aburi.Cir
