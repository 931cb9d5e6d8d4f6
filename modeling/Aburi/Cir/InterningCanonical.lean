import Aburi.Cir.InternExprSettled

/-!
# Ids decide the identity of types

In every file that calls can reach, the ids of types and of value expressions
name pairwise different entries, and an entry keeps its name for as long as the
id is valid.  Two calls return one id exactly when the comparison takes the two
specifications for equal, which is the identity of types but for the fields of
template arguments that the comparison does not read.
-/

namespace Aburi.Cir

open Aburi.Lib (Handle HashEntry Mark HashCons Generations.live_iff)

section Steps

variable (stringHash : String → UInt64) {file : File}

theorem noteTypeEntry_valueExprMark (entry : HashEntry TypeTag)
    (transactions : List Transaction) :
    (File.noteTypeEntry entry transactions).map Transaction.valueExprMark =
      transactions.map Transaction.valueExprMark := by
  cases transactions <;> rfl

theorem internType_valueExprTable (file : File) (spec : TypeSpec) :
    (file.internType stringHash spec).2.valueExprTable = file.valueExprTable := by
  simp only [File.internType]
  split
  · split
    · rfl
    · simp only [File.addType, File.valueExprTable, noteTypeEntry_valueExprMark]
  · rfl

theorem mergeCommitted_valueExprMark (transactions : List Transaction) :
    (File.mergeCommittedTransaction transactions).map Transaction.valueExprMark =
      HashCons.mergeMarks (transactions.map Transaction.valueExprMark) := by
  match transactions with
  | [] => rfl
  | [_] => rfl
  | _ :: _ :: _ => rfl

theorem commit_valueExprTable (file : File) :
    file.commitTransaction.valueExprTable = file.valueExprTable.commit := by
  simp only [File.commitTransaction, File.valueExprTable, HashCons.commit,
    mergeCommitted_valueExprMark]

theorem rollback_valueExprTable (file : File) :
    file.rollbackTransaction.valueExprTable = file.valueExprTable.rollback := by
  rw [File.rollbackTransaction, HashCons.rollback]
  cases top : file.transactions with
  | nil => simp [File.valueExprTable, top]
  | cons transaction rest =>
    simp only [File.valueExprTable, top, List.map_cons]
    rfl

/-- A rolled back table names what it named, where the name is still valid. -/
theorem rollback_keyAt_of_live {Key Tag : Type} {table : HashCons Key Tag}
    {id : Handle Tag} {key : Key} (named : table.keyAt id = some key)
    (alive : Aburi.Lib.Generations.live table.rollback.generations
      table.rollback.keys.length id = true) :
    table.rollback.keyAt id = some key := by
  obtain ⟨-, inside, -⟩ := Generations.live_iff.mp alive
  have found : table.rollback.keyAt id = some table.rollback.keys[id.index.toNat] := by
    rw [HashCons.keyAt, if_pos alive, List.getElem?_eq_getElem inside]
  rw [← named, found, HashCons.rollback_keyAt found]

/-- Every call keeps the types sound, and keeps the names that stay valid. -/
theorem types_step {table : TypeTable} (represented : TypesRepresented file table)
    (sound : table.Sound (typeSpecHash stringHash) typeSpecsEqual) {call : InternCall}
    (admits : file.Admits call) (fits : (file.call stringHash call).Fits) :
    ∃ table', TypesRepresented (file.call stringHash call) table' ∧
      table'.Sound (typeSpecHash stringHash) typeSpecsEqual ∧
      ∀ id spec, table.keyAt id = some spec →
        (file.call stringHash call).validType id = true → table'.keyAt id = some spec := by
  cases call with
  | internType spec =>
    simp only [File.call] at fits ⊢
    by_cases consistent : typeSpecMatchesPayload spec = true
    · have refines := (internType_represented stringHash represented sound consistent admits
        fits.1).1
      have room := fits.1
      rw [refines.length] at room
      refine ⟨_, refines, HashCons.intern_sound _ _ sound
        (fun _ _ => typeSpecHash_congr stringHash) room, ?_⟩
      intro id stored named _
      exact HashCons.intern_keyAt_of_some _ _ sound room named
    · have unchanged : (file.internType stringHash spec).2 = file := by
        rw [File.internType, if_neg consistent]
      rw [unchanged]
      exact ⟨table, represented, sound, fun _ _ named _ => named⟩
  | internTemplateValueExpression expression =>
    have grows := internTemplateValueExpression_grows stringHash file expression
    exact ⟨table, represented.congr grows.types, sound, fun _ _ named _ => named⟩
  | beginTransaction =>
    exact ⟨table.begin, begin_represented represented, HashCons.begin_sound _ _ sound,
      fun _ _ named _ => named⟩
  | commitTransaction =>
    exact ⟨table.commit, commit_represented represented, HashCons.commit_sound _ _ sound,
      fun _ _ named _ => named⟩
  | rollbackTransaction =>
    have refines := rollback_represented stringHash represented sound
    refine ⟨table.rollback, refines, HashCons.rollback_sound _ _ sound, ?_⟩
    intro id spec named alive
    apply rollback_keyAt_of_live named
    rwa [← refines.validType_eq]

theorem exprs_step (sound : file.ExprsSound stringHash) {call : InternCall}
    (fits : (file.call stringHash call).Fits) :
    (file.call stringHash call).ExprsSound stringHash ∧
      ∀ id stored, file.valueExprTable.keyAt id = some stored →
        (file.call stringHash call).validValueExpression id = true →
        (file.call stringHash call).valueExprTable.keyAt id = some stored := by
  cases call with
  | internType spec =>
    have unchanged := internType_valueExprTable stringHash file spec
    simp only [File.call, File.ExprsSound, unchanged]
    exact ⟨sound, fun _ _ named _ => named⟩
  | internTemplateValueExpression expression =>
    have grows := internTemplateValueExpression_grows stringHash file expression
    obtain ⟨afterwards, kept⟩ := grows.sound fits.2 sound
    exact ⟨afterwards, fun id stored named _ => kept id stored named⟩
  | beginTransaction =>
    exact ⟨HashCons.begin_sound _ _ sound, fun _ _ named _ => named⟩
  | commitTransaction =>
    simp only [File.call, File.ExprsSound, commit_valueExprTable]
    exact ⟨HashCons.commit_sound _ _ sound, fun _ _ named _ => named⟩
  | rollbackTransaction =>
    have refines := rollback_valueExprTable file
    simp only [File.call, File.ExprsSound, refines]
    refine ⟨HashCons.rollback_sound _ _ sound, ?_⟩
    intro id stored named alive
    apply rollback_keyAt_of_live named
    rw [← refines]
    exact alive

end Steps

section Runs

variable (stringHash : String → UInt64)

/-- The types of the file are sound and the id names the specification among them. -/
def File.NamesType (file : File) (id : TypeId) (spec : TypeSpec) : Prop :=
  ∃ table, TypesRepresented file table ∧
    table.Sound (typeSpecHash stringHash) typeSpecsEqual ∧ table.keyAt id = some spec

def File.NamesValueExpression (file : File) (id : ValueExprId)
    (stored : TemplateValueExpression) : Prop :=
  file.ExprsSound stringHash ∧ file.valueExprTable.keyAt id = some stored

theorem start_represented :
    TypesRepresented {} (HashCons.initial {} : TypeTable) := by
  refine ⟨rfl, rfl, rfl, rfl, rfl, by simp, ?_⟩
  intro slot spec positive found
  have inside := (List.getElem?_eq_some_iff.mp found).1
  simp only [HashCons.initial, List.length_singleton] at inside
  omega

theorem Reachable.sound {file : File} (reachable : Reachable stringHash file) :
    (∃ table, TypesRepresented file table ∧
      table.Sound (typeSpecHash stringHash) typeSpecsEqual) ∧
      file.ExprsSound stringHash := by
  induction reachable with
  | start =>
    exact ⟨⟨_, start_represented, HashCons.initial_sound _⟩, HashCons.initial_sound _⟩
  | step _ steps ih =>
    obtain ⟨⟨table, represented, sound⟩, exprsSound⟩ := ih
    obtain ⟨call, admits, rfl, fits⟩ := steps
    obtain ⟨table', represented', sound', -⟩ := types_step stringHash represented sound admits fits
    exact ⟨⟨table', represented', sound'⟩, (exprs_step stringHash exprsSound fits).1⟩

theorem NamesType.runs {first last : File} {id : TypeId} {spec : TypeSpec}
    (named : first.NamesType stringHash id spec)
    (runs : RunsWhile stringHash (fun file => file.validType id = true) first last) :
    last.NamesType stringHash id spec := by
  induction runs with
  | stay => exact named
  | step _ steps alive ih =>
    obtain ⟨table, represented, sound, stored⟩ := ih
    obtain ⟨call, admits, rfl, fits⟩ := steps
    obtain ⟨table', represented', sound', kept⟩ :=
      types_step stringHash represented sound admits fits
    exact ⟨table', represented', sound', kept id spec stored alive⟩

theorem NamesValueExpression.runs {first last : File} {id : ValueExprId}
    {stored : TemplateValueExpression}
    (named : first.NamesValueExpression stringHash id stored)
    (runs : RunsWhile stringHash (fun file => file.validValueExpression id = true) first last) :
    last.NamesValueExpression stringHash id stored := by
  induction runs with
  | stay => exact named
  | step _ steps alive ih =>
    obtain ⟨call, -, rfl, fits⟩ := steps
    obtain ⟨sound, kept⟩ := exprs_step stringHash ih.1 fits
    exact ⟨sound, kept id stored ih.2 alive⟩

theorem internType_names {file : File} (reachable : Reachable stringHash file)
    {spec : TypeSpec} (consistent : typeSpecMatchesPayload spec = true)
    (admits : file.Admits (.internType spec))
    (fits : (file.internType stringHash spec).2.Fits) :
    ∃ stored, (file.internType stringHash spec).2.NamesType stringHash
        (file.internType stringHash spec).1 stored ∧ typeSpecsEqual stored spec = true := by
  obtain ⟨⟨table, represented, sound⟩, -⟩ := reachable.sound
  obtain ⟨refines, sameId⟩ :=
    internType_represented stringHash represented sound consistent admits fits.1
  have room := fits.1
  rw [refines.length] at room
  obtain ⟨stored, named, equal⟩ := HashCons.intern_keyAt _ _ sound typeSpecsEqual_refl room
  refine ⟨stored, ⟨_, refines, HashCons.intern_sound _ _ sound
    (fun _ _ => typeSpecHash_congr stringHash) room, ?_⟩, equal⟩
  rw [sameId]
  exact named

/-- A later call returns the id of an earlier one exactly when the comparison says so. -/
theorem internType_again_iff {file later : File} (reachable : Reachable stringHash file)
    {lhs rhs : TypeSpec} (consistent : typeSpecMatchesPayload lhs = true)
    (consistent' : typeSpecMatchesPayload rhs = true)
    (admits : file.Admits (.internType lhs))
    (fits : (file.internType stringHash lhs).2.Fits)
    (runs : RunsWhile stringHash
      (fun between => between.validType (file.internType stringHash lhs).1 = true)
      (file.internType stringHash lhs).2 later)
    (admits' : later.Admits (.internType rhs))
    (fits' : (later.internType stringHash rhs).2.Fits) :
    (later.internType stringHash rhs).1 = (file.internType stringHash lhs).1 ↔
      typeSpecsEqual lhs rhs = true := by
  obtain ⟨stored, named, equal⟩ := internType_names stringHash reachable consistent admits fits
  obtain ⟨table, represented, sound, key⟩ := NamesType.runs stringHash named runs
  obtain ⟨refines, sameId⟩ :=
    internType_represented stringHash represented sound consistent' admits' fits'.1
  have room := fits'.1
  rw [refines.length] at room
  rw [sameId, HashCons.intern_eq_iff _ _ sound typeSpecsEqual_refl typeSpecsEqual_symm
    typeSpecsEqual_trans (fun _ _ => typeSpecHash_congr stringHash) room key]
  constructor
  · intro same
    exact typeSpecsEqual_trans _ _ _ (typeSpecsEqual_symm _ _ equal) same
  · intro same
    exact typeSpecsEqual_trans _ _ _ equal same

theorem internTemplateValueExpression_again_iff {file later : File}
    (reachable : Reachable stringHash file) {lhs rhs : TemplateValueExpression}
    (valid : lhs.valid = true) (valid' : rhs.valid = true)
    (fits : (file.internTemplateValueExpression stringHash lhs).2.Fits)
    (runs : RunsWhile stringHash
      (fun between => between.validValueExpression
        (file.internTemplateValueExpression stringHash lhs).1 = true)
      (file.internTemplateValueExpression stringHash lhs).2 later)
    (fits' : (later.internTemplateValueExpression stringHash rhs).2.Fits) :
    (later.internTemplateValueExpression stringHash rhs).1 =
        (file.internTemplateValueExpression stringHash lhs).1 ↔
      templateValueExprsStructurallyEqual lhs rhs = true := by
  have sound := (reachable.sound stringHash).2
  obtain ⟨stored, named, equal⟩ := internTemplateValueExpression_keyAt stringHash sound valid fits.2
  have grows := internTemplateValueExpression_grows stringHash file lhs
  obtain ⟨laterSound, key⟩ := NamesValueExpression.runs stringHash
    ⟨(grows.sound fits.2 sound).1, named⟩ runs
  rw [internTemplateValueExpression_eq_iff stringHash laterSound valid' fits'.2 key]
  constructor
  · intro same
    exact valueExprsEqual_trans _ _ _ (valueExprsEqual_symm _ _ equal) same
  · intro same
    exact valueExprsEqual_trans _ _ _ equal same

end Runs

/-- Interning is canonical exactly for specifications that, where the comparison finds no
difference, agree in the unread fields of their template arguments as well; what compares
equal is hashed alike. -/
theorem interning_canonical_iff (stringHash : String → UInt64) :
    (∀ file : File, Reachable stringHash file → ∀ lhs rhs : TypeSpec,
      typeSpecMatchesPayload lhs = true → typeSpecMatchesPayload rhs = true →
      file.Admits (.internType lhs) → (file.internType stringHash lhs).2.Fits →
      ∀ later : File,
        RunsWhile stringHash
          (fun between => between.validType (file.internType stringHash lhs).1 = true)
          (file.internType stringHash lhs).2 later →
        later.Admits (.internType rhs) → (later.internType stringHash rhs).2.Fits →
        (((later.internType stringHash rhs).1 = (file.internType stringHash lhs).1 ↔
            SameType lhs rhs) ↔
          (typeSpecsEqual lhs rhs = true → lhs.payload.unread = rhs.payload.unread))) ∧
    (∀ file : File, Reachable stringHash file → ∀ lhs rhs : TemplateValueExpression,
      lhs.valid = true → rhs.valid = true →
      (file.internTemplateValueExpression stringHash lhs).2.Fits →
      ∀ later : File,
        RunsWhile stringHash
          (fun between => between.validValueExpression
            (file.internTemplateValueExpression stringHash lhs).1 = true)
          (file.internTemplateValueExpression stringHash lhs).2 later →
        (later.internTemplateValueExpression stringHash rhs).2.Fits →
        (((later.internTemplateValueExpression stringHash rhs).1 =
              (file.internTemplateValueExpression stringHash lhs).1 ↔
            SameValueExpression lhs rhs) ↔
          (templateValueExprsStructurallyEqual lhs rhs = true → lhs.unread = rhs.unread))) ∧
    (∀ (lhs rhs : TypePayload) (hash : UInt64), payloadFieldsEqual lhs rhs = true →
      hashPayload stringHash hash lhs = hashPayload stringHash hash rhs) ∧
    (∀ (lhs rhs : TemplateArgument) (hash : UInt64),
      templateArgumentsStructurallyEqual lhs rhs = true →
      hashTemplateArgument stringHash hash lhs = hashTemplateArgument stringHash hash rhs) := by
  refine ⟨?_, ?_, ?_, ?_⟩
  · intro file reachable lhs rhs consistent consistent' admits fits later runs admits' fits'
    rw [internType_again_iff stringHash reachable consistent consistent' admits fits runs
      admits' fits', sameType_iff]
    tauto
  · intro file reachable lhs rhs valid valid' fits later runs fits'
    rw [internTemplateValueExpression_again_iff stringHash reachable valid valid' fits runs fits',
      sameValueExpression_iff]
    tauto
  · intro lhs rhs hash equal
    exact hashPayload_congr stringHash equal hash
  · intro lhs rhs hash equal
    exact hashTemplateArgument_congr stringHash equal hash

theorem internType_grows_by_one (stringHash : String → UInt64) (file : File)
    (spec : TypeSpec) :
    (file.internType stringHash spec).2.types.length ≤ file.types.length + 1 ∧
      (file.internType stringHash spec).2.valueExpressions = file.valueExpressions := by
  simp only [File.internType]
  split
  · split
    · simp
    · simp [File.addType]
  · simp

/-- A template-id with one argument: the pattern `B<Ts>`, or its expansion `B<Ts>...`. -/
def patternTemplateId (expanded : Bool) : TypeSpec where
  kind := .templateSpecialization
  payload := .templateSpecialization
    { primaryTemplate := ⟨1, 1⟩
      isDependent := true
      arguments :=
        [.plain { type := { type := ⟨1, 1⟩ }, isDependent := true,
                  expandsPackPattern := expanded }] }

theorem patternTemplateId_fits (stringHash : String → UInt64) (first second : Bool) :
    ((({} : File).internType stringHash (patternTemplateId first)).2).Fits ∧
      ((({} : File).internType stringHash (patternTemplateId first)).2.internType stringHash
        (patternTemplateId second)).2.Fits := by
  have once := internType_grows_by_one stringHash {} (patternTemplateId first)
  have twice := internType_grows_by_one stringHash
    (({} : File).internType stringHash (patternTemplateId first)).2 (patternTemplateId second)
  have start : ({} : File).types.length = 1 := rfl
  have startExprs : ({} : File).valueExpressions.length = 1 := rfl
  rw [File.Fits, File.Fits, twice.2, once.2, startExprs]
  omega

theorem patternTemplateId_admitted (file : File) (expanded : Bool)
    (nonzero : file.nextTypeId.index ≠ 0) :
    file.Admits (.internType (patternTemplateId expanded)) := by
  intro equal
  rw [← equal] at nonzero
  exact nonzero rfl

theorem patternTemplateId_interned_once :
    ((({} : File).internType String.hash (patternTemplateId true)).2.internType String.hash
        (patternTemplateId true)).1 =
      (({} : File).internType String.hash (patternTemplateId true)).1 ↔
    SameType (patternTemplateId true) (patternTemplateId true) := by
  have fits := patternTemplateId_fits String.hash true true
  have admitted := patternTemplateId_admitted {} true (by decide)
  have admittedAgain := patternTemplateId_admitted
    (({} : File).internType String.hash (patternTemplateId true)).2 true (by decide)
  exact ((interning_canonical_iff String.hash).1 {} .start _ _ rfl rfl admitted fits.1 _
    (.stay _) admittedAgain fits.2).mpr fun _ => rfl

/-- The pattern and its expansion are two types with one id. -/
theorem patternTemplateId_merged :
    ((({} : File).internType String.hash (patternTemplateId false)).2.internType String.hash
        (patternTemplateId true)).1 =
      (({} : File).internType String.hash (patternTemplateId false)).1 ∧
    ¬ SameType (patternTemplateId false) (patternTemplateId true) := by
  have fits := patternTemplateId_fits String.hash false true
  have admitted := patternTemplateId_admitted {} false (by decide)
  have admittedAgain := patternTemplateId_admitted
    (({} : File).internType String.hash (patternTemplateId false)).2 true (by decide)
  constructor
  · rw [internType_again_iff String.hash .start rfl rfl admitted fits.1 (.stay _) admittedAgain
      fits.2]
    decide
  · rw [sameType_iff]
    intro same
    exact absurd same.2 (by decide)

end Aburi.Cir
