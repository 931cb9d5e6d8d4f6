import Aburi.Cir.FileRuns
import Mathlib.Data.List.Induction

/-!
# A rollback restores the file

In every run whose calls can be taken back, the rollback of a transaction leaves the
file as it was when the transaction began, and no id that was handed out in between
is valid again.
-/

namespace Aburi.Cir.Full

open Aburi.Lib List Option

variable {contents : Contents}

/-- What a call does to the stack of transactions. -/
inductive Bracket where
  | none | opens
  | closes (id : TransactionId)

def Call.bracket : Call contents → Bracket
  | .beginTransaction => .opens
  | .commitTransaction id => .closes id
  | .rollbackTransaction id => .closes id
  | _ => .none

/-- The number of open transactions after calls that close none from before. -/
def depthAfter : ℕ → List (Call contents) → Option ℕ
  | depth, [] => some depth
  | depth, call :: rest =>
    match call.bracket with
    | .none => depthAfter depth rest
    | .opens => depthAfter (depth + 1) rest
    | .closes _ => if depth = 0 then none else depthAfter (depth - 1) rest

/-- The call is made in the order of the brackets, its changes can be taken back, and
there are indices and generations for the records it adds. -/
structure File.Admits (environment : Environment) (file : File contents)
    (call : Call contents) : Prop where
  innermost : ∀ id, call.bracket = .closes id → file.IsInnermost id
  covers : file.Covers environment call
  commits : ∀ id, call = .commitTransaction id → file.CommitCovered
  counters : file.CountersReady
  fits : (file.call environment call).Fits

variable (environment : Environment)

def File.run (file : File contents) (calls : List (Call contents)) : File contents :=
  calls.foldl (File.call environment) file

def File.AdmitsAll : File contents → List (Call contents) → Prop
  | _, [] => True
  | file, call :: rest =>
    file.Admits environment call ∧ File.AdmitsAll (file.call environment call) rest

/-- The second file has what the first one has; messages may have been pinned. -/
structure File.SameAs (begun undone : File contents) : Prop where
  graph : undone.graph = begun.graph
  interned : undone.interned.tables = begun.interned.tables
  errors : undone.errors.messages.take begun.errors.messages.length = begun.errors.messages
  errorsPinned : undone.errors.messages.length =
    max begun.errors.messages.length undone.errors.floor
  notes : undone.notes.messages.take begun.notes.messages.length = begun.notes.messages
  notesPinned : undone.notes.messages.length =
    max begun.notes.messages.length undone.notes.floor

theorem File.run_append (file : File contents) (first second : List (Call contents)) :
    file.run environment (first ++ second) = (file.run environment first).run environment second :=
  foldl_append

theorem admitsAll_append {file : File contents} {first second : List (Call contents)} :
    file.AdmitsAll environment (first ++ second) ↔
      file.AdmitsAll environment first ∧
        (file.run environment first).AdmitsAll environment second := by
  induction first generalizing file with
  | nil => simp [File.AdmitsAll, File.run]
  | cons call rest ih =>
    simp only [cons_append, File.AdmitsAll, ih, and_assoc]
    rfl

theorem depthAfter_append (depth : ℕ) (first second : List (Call contents)) :
    depthAfter depth (first ++ second) =
      (depthAfter depth first).bind fun middle => depthAfter middle second := by
  induction first generalizing depth with
  | nil => rfl
  | cons call rest ih =>
    simp only [cons_append, depthAfter]
    cases call.bracket with
    | none | opens => exact ih _
    | closes id =>
      simp only
      split
      · rfl
      · exact ih _

section Steps

variable {environment} {file : File contents} {call : Call contents}

theorem isMutator_of_bracket (plain : call.bracket = .none) : call.isMutator = true := by
  cases call <;> first | rfl | exact absurd plain Bracket.noConfusion

theorem call_of_opens (opens : call.bracket = .opens) : call = .beginTransaction := by
  cases call <;> first | rfl | exact absurd opens Bracket.noConfusion

theorem call_of_closes {id : TransactionId} (closes : call.bracket = .closes id) :
    call = .commitTransaction id ∨ call = .rollbackTransaction id := by
  cases call <;> first
    | exact absurd closes Bracket.noConfusion
    | simp only [Call.bracket, Bracket.closes.injEq] at closes
      simp [closes]

theorem call_bounded (bounded : file.Bounded) (admits : file.Admits environment call) :
    (file.call environment call).Bounded := by
  cases bracket : call.bracket with
  | none =>
    exact (call_keeps environment (isMutator_of_bracket bracket) admits.covers).bounded
      bounded admits.counters admits.fits
  | opens =>
    rw [call_of_opens bracket]
    exact beginTransaction_fullBounded bounded
  | closes id =>
    have innermost := admits.innermost id bracket
    cases call_of_closes bracket with
    | inl commits =>
      rw [commits]
      exact commitTransaction_fullBounded bounded innermost
    | inr rolls =>
      rw [rolls]
      exact rollbackTransaction_fullBounded bounded innermost

/-- The states that are restored lose their first one when a transaction ends. -/
theorem call_restored_of_closes {id : TransactionId} (closes : call.bracket = .closes id)
    (bounded : file.Bounded) (admits : file.Admits environment call) :
    (file.call environment call).restored = file.restored.drop 1 := by
  have innermost := admits.innermost id closes
  cases call_of_closes closes with
  | inl commits =>
    have covered := admits.commits id commits
    rw [commits]
    exact commitTransaction_restored bounded innermost covered
  | inr rolls =>
    rw [rolls]
    exact rollbackTransaction_restored bounded innermost

theorem call_slots (bounded : file.Bounded) (admits : file.Admits environment call) :
    file.SlotsAdvance (file.call environment call) ∨
      ((file.call environment call).counters = file.counters ∧
        ∀ space, (file.call environment call).extent space ≤ file.extent space) := by
  cases bracket : call.bracket with
  | none =>
    left
    exact (call_keeps environment (isMutator_of_bracket bracket) admits.covers).slotsAdvance
      bounded admits.counters admits.fits
  | opens =>
    left
    rw [call_of_opens bracket]
    apply slotsAdvance_refl bounded
    · funext space
      cases space <;> rfl
    · funext space
      cases space <;> rfl
  | closes id =>
    right
    have innermost := admits.innermost id bracket
    cases call_of_closes bracket with
    | inl commits =>
      rw [commits]
      have same : (file.commitTransaction id).counters = file.counters ∧
          (file.commitTransaction id).extent = file.extent := by
        obtain ⟨top, rest, transactions, named⟩ := innermost
        rw [File.commitTransaction, transactions]
        simp only [named, if_true]
        constructor
        · funext space
          cases space <;> rfl
        · funext space
          cases space <;> rfl
      exact ⟨same.1, fun space => le_of_eq (congrFun same.2 space)⟩
    | inr rolls =>
      rw [rolls]
      exact ⟨rollbackTransaction_counters file id,
        rollbackTransaction_extent bounded innermost⟩

end Steps

section Runs

variable {environment} {file : File contents} {calls : List (Call contents)}

theorem initial_fullBounded (contents : Contents) : (File.initial contents).Bounded := by
  refine ⟨trivial, Cir.initial_bounded, rfl, trivial, trivial, le_refl _, le_refl _, ?_⟩
  intro space named
  cases space with
  | table table => cases table <;> exact le_refl _
  | types | valueExpressions => exact le_refl _

theorem run_bounded (bounded : file.Bounded) (admitted : file.AdmitsAll environment calls) :
    (file.run environment calls).Bounded := by
  induction calls generalizing file with
  | nil => exact bounded
  | cons call rest ih =>
    exact ih (call_bounded bounded admitted.1) admitted.2

theorem run_restored {depth depth' : ℕ} (bracketed : depthAfter depth calls = some depth')
    (bounded : file.Bounded) (admitted : file.AdmitsAll environment calls) :
    (file.run environment calls).restored.drop depth' = file.restored.drop depth := by
  induction calls generalizing file depth with
  | nil =>
    simp only [depthAfter, Option.some.injEq] at bracketed
    rw [bracketed]
    rfl
  | cons call rest ih =>
    obtain ⟨admits, admittedRest⟩ := admitted
    have boundedNext := call_bounded bounded admits
    cases bracket : call.bracket with
    | none =>
      simp only [depthAfter, bracket] at bracketed
      have keeps := call_keeps environment (isMutator_of_bracket bracket) admits.covers
      rw [← keeps.restored bounded admits.fits]
      exact ih bracketed boundedNext admittedRest
    | opens =>
      simp only [depthAfter, bracket] at bracketed
      have started : (file.call environment call).restored = file.restoredWith := by
        rw [call_of_opens bracket]
        exact beginTransaction_restored file
      have later := ih bracketed boundedNext admittedRest
      rw [started] at later
      exact later
    | closes id =>
      simp only [depthAfter, bracket] at bracketed
      split at bracketed
      · exact absurd bracketed (some_ne_none _).symm
      · have ended := call_restored_of_closes bracket bounded admits
        have later := ih bracketed boundedNext admittedRest
        have levels : 1 + (depth - 1) = depth := by omega
        rw [ended, Restored.drop_drop, levels] at later
        exact later

/-- What an open transaction restores has no more records than there are. -/
theorem extent_le_of_restored {graph : Graph contents}
    (ordered : SizesOrdered file.transactions file.size) (member : graph ∈ file.unwound)
    (table : Table) : (graph.rows table).length ≤ file.size table := by
  obtain ⟨current, generations, interned, errors, notes, transactions, next⟩ := file
  induction transactions generalizing current with
  | nil => exact absurd member not_mem_nil
  | cons top rest ih =>
    have shorter : ((top.undo current).rows table).length ≤ (current.rows table).length := by
      rw [length_undo (ordered.1 table)]
      exact ordered.1 table
    cases List.mem_cons.mp member with
    | inl same =>
      rw [same]
      exact shorter
    | inr deeper =>
      have sizes : (fun table => ((top.undo current).rows table).length) = top.sizes := by
        funext table
        exact length_undo (ordered.1 table)
      have orderedRest : SizesOrdered rest
          (fun table => ((top.undo current).rows table).length) := by
        rw [sizes]
        exact ordered.2
      exact le_trans (ih (top.undo current) orderedRest deeper) shorter

theorem internedExtent_le_of_restored {interned : Cir.File} {tables : InternTables}
    (member : tables ∈ interned.unwound) :
    tables.types.length ≤ interned.types.length ∧
      tables.valueExpressions.length ≤ interned.valueExpressions.length := by
  have general (transactions : List Cir.Transaction) (current : InternTables)
      (member : tables ∈ unwind Cir.Transaction.undo transactions current) :
      tables.types.length ≤ current.types.length ∧
        tables.valueExpressions.length ≤ current.valueExpressions.length := by
    induction transactions generalizing current with
    | nil => exact absurd member not_mem_nil
    | cons top rest ih =>
      have shorter : (top.undo current).types.length ≤ current.types.length ∧
          (top.undo current).valueExpressions.length ≤ current.valueExpressions.length :=
        ⟨length_take_le' _ _, length_take_le' _ _⟩
      cases List.mem_cons.mp member with
      | inl same =>
        rw [same]
        exact shorter
      | inr deeper =>
        obtain ⟨types, expressions⟩ := ih (top.undo current) deeper
        exact ⟨le_trans types shorter.1, le_trans expressions shorter.2⟩
  exact general interned.transactions interned.tables member

end Runs

section Ids

variable {environment} {file : File contents} {calls : List (Call contents)} {space : IdSpace}
  {Tag : Type} {id : Handle Tag}

section

variable (named : space.hasIds = true) (bounded : file.Bounded)
  (admitted : file.AdmitsAll environment calls)
include named bounded admitted

theorem run_known (known : Generations.Known (file.counters space) id) :
    Generations.Known ((file.run environment calls).counters space) id := by
  induction calls generalizing file with
  | nil => exact known
  | cons call rest ih =>
    apply ih (call_bounded bounded admitted.1) admitted.2
    cases call_slots bounded admitted.1 with
    | inl advance => exact (advance space named).known_of_known known
    | inr freed =>
      rw [freed.1]
      exact known

theorem run_stale (stale : Generations.Stale (file.counters space) (file.extent space) id) :
    Generations.Stale ((file.run environment calls).counters space)
      ((file.run environment calls).extent space) id := by
  induction calls generalizing file with
  | nil => exact stale
  | cons call rest ih =>
    apply ih (call_bounded bounded admitted.1) admitted.2
    cases call_slots bounded admitted.1 with
    | inl advance => exact (advance space named).stale_of_stale stale
    | inr freed =>
      rw [freed.1]
      exact stale.shrink (freed.2 space)

end

end Ids

section Inside

variable {environment} {file : File contents} {calls : List (Call contents)} {depth : ℕ}

section

variable (bracketed : depthAfter 0 calls = some depth) (bounded : file.Bounded)
  (admitted : file.beginTransaction.2.AdmitsAll environment calls)
include bracketed bounded admitted

/-- While a transaction is open, the state at its beginning is among those restored. -/
theorem inside_restored :
    (file.beginTransaction.2.run environment calls).restored.drop depth =
      file.restoredWith := by
  have run := run_restored bracketed (beginTransaction_fullBounded bounded) admitted
  rw [run, ← beginTransaction_restored]
  rfl

theorem inside_extent (space : IdSpace) :
    file.extent space ≤ (file.beginTransaction.2.run environment calls).extent space := by
  have restored := inside_restored bracketed bounded admitted
  have ordered := (run_bounded (beginTransaction_fullBounded bounded) admitted).ordered
  revert restored ordered
  generalize file.beginTransaction.2.run environment calls = current
  intro restored ordered
  have graph : file.graph ∈ current.unwound := by
    apply mem_of_mem_drop
    rw [show current.unwound.drop depth = _ from congrArg Restored.graphs restored]
    exact mem_cons_self
  have tables : file.interned.tables ∈ current.interned.unwound := by
    apply mem_of_mem_drop
    rw [show current.interned.unwound.drop depth = _ from congrArg Restored.tables restored]
    exact mem_cons_self
  cases space with
  | table table => exact extent_le_of_restored ordered graph table
  | types => exact (internedExtent_le_of_restored tables).1
  | valueExpressions => exact (internedExtent_le_of_restored tables).2

theorem inside_counters {space : IdSpace} (named : space.hasIds = true) {slot : ℕ}
    (older : slot < file.extent space) :
    ((file.beginTransaction.2.run environment calls).counters space)[slot]? =
      (file.counters space)[slot]? := by
  induction calls using reverseRecOn generalizing depth with
  | nil =>
    have same : (file.beginTransaction.2.run environment []).counters space =
        file.counters space := by
      cases space <;> rfl
    rw [same]
  | append_singleton earlier call ih =>
    obtain ⟨admittedEarlier, admits, -⟩ := (admitsAll_append environment).mp admitted
    rw [depthAfter_append] at bracketed
    obtain ⟨middle, bracketedEarlier, -⟩ := Option.bind_eq_some_iff.mp bracketed
    have before := ih bracketedEarlier admittedEarlier
    have extent := inside_extent bracketedEarlier bounded admittedEarlier space
    have boundedBefore := run_bounded (beginTransaction_fullBounded bounded) admittedEarlier
    rw [File.run_append, ← before]
    cases call_slots boundedBefore admits with
    | inl advance => exact (advance space named).kept slot (lt_of_lt_of_le older extent)
    | inr freed => exact congrArg (fun counters => (counters space)[slot]?) freed.1

/-- An id that is valid inside a transaction and was not before names a later slot. -/
theorem inside_new_id {space : IdSpace} (named : space.hasIds = true) {id : Handle space.Tag}
    (valid : (file.beginTransaction.2.run environment calls).validIn space id = true)
    (new : file.validIn space id = false) : file.extent space ≤ id.index.toNat := by
  by_contra older
  have inside : id.index.toNat < file.extent space := Nat.lt_of_not_le older
  obtain ⟨nonzero, -, current⟩ := Generations.live_iff.mp valid
  rw [inside_counters bracketed bounded admitted named inside] at current
  have alive : file.validIn space id = true :=
    Generations.live_iff.mpr ⟨nonzero, inside, current⟩
  rw [alive] at new
  exact Bool.false_ne_true new.symm

end

theorem rollback_sameAs (bracketed : depthAfter 0 calls = some 0) (bounded : file.Bounded)
    (admitted : file.beginTransaction.2.AdmitsAll environment calls) {id : TransactionId}
    (innermost : (file.beginTransaction.2.run environment calls).IsInnermost id) :
    file.SameAs
      ((file.beginTransaction.2.run environment calls).rollbackTransaction id) := by
  have restored := inside_restored bracketed bounded admitted
  have boundedInside := run_bounded (beginTransaction_fullBounded bounded) admitted
  revert restored boundedInside innermost
  generalize file.beginTransaction.2.run environment calls = current
  intro innermost restored boundedInside
  have tablesBack := (Cir.rollbackTransaction_bounded boundedInside.interned).2.2
  obtain ⟨top, rest, transactions, named⟩ := innermost
  have errorSizes := boundedInside.errorSizes
  have noteSizes := boundedInside.noteSizes
  rw [transactions] at errorSizes noteSizes
  have graph : top.undo current.graph = file.graph := by
    have heads := congrArg (fun restored => restored.graphs.head?) restored
    simpa [Restored.drop, File.restored, File.unwound, transactions, unwind,
      File.restoredWith] using heads
  have tables : current.interned.unwound.head? = some file.interned.tables := by
    have heads := congrArg (fun restored => restored.tables.head?) restored
    simpa [Restored.drop, File.restored, File.restoredWith] using heads
  have errors : current.errors.messages.take top.errorsSize = file.errors.messages := by
    have heads := congrArg (fun restored => restored.errors.head?) restored
    simpa [Restored.drop, File.restored, Diagnostics.begun, transactions,
      File.restoredWith] using heads
  have notes : current.notes.messages.take top.notesSize = file.notes.messages := by
    have heads := congrArg (fun restored => restored.notes.head?) restored
    simpa [Restored.drop, File.restored, Diagnostics.begun, transactions,
      File.restoredWith] using heads
  have errorsLength : file.errors.messages.length = top.errorsSize := by
    rw [← errors, length_take, Nat.min_eq_left errorSizes.1]
  have notesLength : file.notes.messages.length = top.notesSize := by
    rw [← notes, length_take, Nat.min_eq_left noteSizes.1]
  rw [rollbackTransaction_eq transactions named]
  refine ⟨graph, tablesBack _ tables, ?_, ?_, ?_, ?_⟩
  · rw [errorsLength, ← errors]
    simp only [Diagnostics.rollback, take_take]
    rw [Nat.min_eq_left (le_max_left _ _)]
  · rw [errorsLength]
    exact length_rollback errorSizes.1 boundedInside.errorFloor
  · rw [notesLength, ← notes]
    simp only [Diagnostics.rollback, take_take]
    rw [Nat.min_eq_left (le_max_left _ _)]
  · rw [notesLength]
    exact length_rollback noteSizes.1 boundedInside.noteFloor

theorem SameAs.extent {begun undone : File contents} (same : begun.SameAs undone)
    (space : IdSpace) : undone.extent space = begun.extent space := by
  cases space with
  | table table => exact congrArg (fun graph => (graph.rows table).length) same.graph
  | types => exact congrArg (fun tables => tables.types.length) same.interned
  | valueExpressions =>
    exact congrArg (fun tables => tables.valueExpressions.length) same.interned

end Inside

/-- In a run of admitted calls, a rollback leaves the file as it was when the transaction
began, and no id handed out in between is valid again. -/
theorem rollback_restores (before early late after : List (Call contents)) (id : TransactionId)
    (admitted : (File.initial contents).AdmitsAll environment
      (before ++ .beginTransaction :: (early ++ late ++ .rollbackTransaction id :: after)))
    (bracketed : depthAfter 0 (early ++ late) = some 0) :
    let begun := (File.initial contents).run environment before
    let inside := (begun.call environment .beginTransaction).run environment early
    let undone := (inside.run environment late).call environment (.rollbackTransaction id)
    begun.SameAs undone ∧
      ∀ space : IdSpace, space.hasIds = true → ∀ handle : Handle space.Tag,
        inside.validIn space handle = true → begun.validIn space handle = false →
        undone.validIn space handle = false ∧
          (undone.run environment after).validIn space handle = false := by
  intro begun inside undone
  obtain ⟨admittedBefore, _, admittedInside⟩ := (admitsAll_append environment).mp admitted
  obtain ⟨admittedCalls, admitsRollback, admittedAfter⟩ :=
    (admitsAll_append environment).mp admittedInside
  have boundedBegun : begun.Bounded := run_bounded (initial_fullBounded contents) admittedBefore
  have ran : (begun.call environment .beginTransaction).run environment (early ++ late) =
      inside.run environment late := File.run_append ..
  have boundedLast := run_bounded (beginTransaction_fullBounded boundedBegun) admittedCalls
  have innermost := admitsRollback.innermost id rfl
  have same : begun.SameAs undone := by
    have restored := rollback_sameAs bracketed boundedBegun admittedCalls innermost
    rw [show begun.beginTransaction.2.run environment (early ++ late) = _ from ran] at restored
    exact restored
  refine ⟨same, fun space named handle valid new => ?_⟩
  obtain ⟨admittedEarly, admittedLate⟩ := (admitsAll_append environment).mp admittedCalls
  rw [depthAfter_append] at bracketed
  obtain ⟨depth, bracketedEarly, -⟩ := Option.bind_eq_some_iff.mp bracketed
  have later := inside_new_id bracketedEarly boundedBegun admittedEarly named valid new
  have boundedInside := run_bounded (beginTransaction_fullBounded boundedBegun) admittedEarly
  have known : Generations.Known (undone.counters space) handle := by
    have atEnd := run_known named boundedInside admittedLate (Generations.known_of_live valid)
    rw [show undone.counters = _ from rollbackTransaction_counters _ id]
    exact atEnd
  have stale : Generations.Stale (undone.counters space) (undone.extent space) handle := by
    apply Generations.stale_of_known known
    rw [SameAs.extent same]
    exact later
  have boundedUndone : undone.Bounded := by
    have bounded := call_bounded boundedLast admitsRollback
    rw [show begun.beginTransaction.2.run environment (early ++ late) = _ from ran] at bounded
    exact bounded
  have admittedLater : undone.AdmitsAll environment after := by
    rw [show (begun.call environment .beginTransaction).run environment (early ++ late) = _
      from ran] at admittedAfter
    exact admittedAfter
  exact ⟨stale.not_live, (run_stale named boundedUndone admittedLater stale).not_live⟩

section Examples

/-- Records without further fields. -/
def plainContents : Contents where
  Rest _ := Unit
  FactRest _ := Unit
  MethodRest := Unit
  Terminator := Unit
  rest _ := ()
  terminator := ()

def plainEnvironment : Environment where
  stringHash _ := 0
  canonicalBuiltinTypeKind kind := kind
  builtinTypeKindName _ := "int"

/-- A file with one declaration context. -/
def unitFile : File plainContents :=
  (File.initial plainContents).run plainEnvironment
    [.createDeclContext .translationUnit {} {} 0]

/-- A binding is added and the context asked for, both in an inner transaction. -/
def boundInside : List (Call plainContents) :=
  [.beginTransaction, .addBinding { context := ⟨1, 1⟩, rest := () },
    .declContextMut ⟨1, 1⟩ fun context => context, .commitTransaction 2]

/-- The binding stays in its context after the outer transaction was rolled back. -/
theorem committed_binding_stays :
    depthAfter 0 boundInside = some 0 ∧
      ¬ unitFile.SameAs (unitFile.run plainEnvironment
        (.beginTransaction :: boundInside ++ [Call.rollbackTransaction 1])) := by
  refine ⟨by decide, fun same => ?_⟩
  have bindings := congrArg
    (fun graph => (graph.rows .declContexts)[1]?.map DeclContext.bindings) same.graph
  revert bindings
  decide

def IdSpace.all : List IdSpace :=
  [.table .names, .table .entities, .table .declContexts, .table .bindings,
    .table .placeFacts, .table .placeholderResultFacts, .table .constantStates,
    .table .closureIdentities, .table .switchFacts, .table .moduleUnits, .table .insts,
    .table .inlineAsmPayloads, .table .blocks, .table .functions, .table .generics,
    .table .specifics, .types, .valueExpressions]

theorem IdSpace.mem_all {space : IdSpace} (named : space.hasIds = true) :
    space ∈ IdSpace.all := by
  cases space with
  | table which =>
    cases which <;> first
      | exact absurd named Bool.false_ne_true
      | simp [IdSpace.all]
  | types => simp [IdSpace.all]
  | valueExpressions => simp [IdSpace.all]

/-- There are indices and generations left in every table. -/
def File.hasRoom (file : File contents) : Bool :=
  IdSpace.all.all fun space =>
    decide (file.extent space ≤ 2 ^ 32) &&
      ((file.counters space).drop (file.extent space)).all fun generation =>
        decide (generation ≠ 0xFFFFFFFF)

section

variable {file : File contents}

theorem File.fits_of_hasRoom (room : file.hasRoom = true) :
    file.Fits := by
  intro space named
  have here := List.all_eq_true.mp room space (IdSpace.mem_all named)
  rw [Bool.and_eq_true] at here
  exact of_decide_eq_true here.1

theorem File.countersReady_of_hasRoom (room : file.hasRoom = true) :
    file.CountersReady := by
  intro space named generation member
  have here := List.all_eq_true.mp room space (IdSpace.mem_all named)
  rw [Bool.and_eq_true] at here
  exact of_decide_eq_true (List.all_eq_true.mp here.2 generation member)

/-- A call that closes no transaction is admitted where there is room. -/
theorem admits_of_hasRoom {call : Call contents} (stays : ∀ id, call.bracket ≠ .closes id)
    (covers : file.Covers environment call) (room : file.hasRoom = true)
    (roomAfter : (file.call environment call).hasRoom = true) :
    file.Admits environment call := by
  refine ⟨fun id closes => absurd closes (stays id), covers, ?_,
    File.countersReady_of_hasRoom room, File.fits_of_hasRoom roomAfter⟩
  intro id commits
  exact absurd (by rw [commits]; rfl) (stays id)

theorem commitCovered_of_unsaved
    (unsaved : (file.transactions.head?.map fun top => top.saved .declContexts) = some []) :
    file.CommitCovered := by
  intro child parent rest transactions delta _ _ _
  rw [transactions, head?_cons, map_some, Option.some.injEq] at unsaved
  rw [unsaved]
  rfl

theorem isInnermost_of_head {id : TransactionId}
    (innermost : file.transactions.head?.map Transaction.id = some id) :
    file.IsInnermost id := by
  cases transactions : file.transactions with
  | nil => simp [transactions] at innermost
  | cons top rest => exact ⟨top, rest, transactions, by simpa [transactions] using innermost⟩

end

/-- A name is interned and bound in a transaction inside the one that is rolled back. -/
def boundName : List (Call plainContents) :=
  [.beginTransaction, .internName "x",
    .addBinding { name := ⟨1, 1⟩, context := ⟨1, 1⟩, rest := () }, .commitTransaction 2]

theorem boundName_admitted :
    (File.initial plainContents).AdmitsAll plainEnvironment
      ([Call.createDeclContext .translationUnit {} {} 0] ++ Call.beginTransaction ::
        (boundName ++ [] ++ Call.rollbackTransaction 1 :: [Call.internName "y"])) := by
  refine ⟨?_, ?_, ?_, ?_, ?_, ?_, ?_, ?_, trivial⟩
  · exact admits_of_hasRoom _ (fun _ => Bracket.noConfusion) trivial (by decide) (by decide)
  · exact admits_of_hasRoom _ (fun _ => Bracket.noConfusion) trivial (by decide) (by decide)
  · exact admits_of_hasRoom _ (fun _ => Bracket.noConfusion) trivial (by decide) (by decide)
  · exact admits_of_hasRoom _ (fun _ => Bracket.noConfusion) trivial (by decide) (by decide)
  · exact admits_of_hasRoom _ (fun _ => Bracket.noConfusion) trivial (by decide) (by decide)
  · refine ⟨?_, trivial, fun _ _ => commitCovered_of_unsaved rfl,
      File.countersReady_of_hasRoom (by decide), File.fits_of_hasRoom (by decide)⟩
    rintro id ⟨⟩
    exact isInnermost_of_head rfl
  · refine ⟨?_, trivial, ?_,
      File.countersReady_of_hasRoom (by decide), File.fits_of_hasRoom (by decide)⟩
    · rintro id ⟨⟩
      exact isInnermost_of_head rfl
    · rintro id ⟨⟩
  · exact admits_of_hasRoom _ (fun _ => Bracket.noConfusion) trivial (by decide) (by decide)

/-- The name's id is valid inside the transactions and not after the rollback, although
another name has its index then. -/
theorem boundName_restored :
    let inside := (unitFile.call plainEnvironment .beginTransaction).run plainEnvironment boundName
    let undone := inside.call plainEnvironment (.rollbackTransaction 1)
    unitFile.SameAs undone ∧ inside.valid .names ⟨1, 1⟩ = true ∧
      (undone.run plainEnvironment [.internName "y"]).size .names = inside.size .names ∧
      (undone.run plainEnvironment [.internName "y"]).valid .names ⟨1, 1⟩ = false := by
  intro inside undone
  have restored := rollback_restores plainEnvironment
    [.createDeclContext .translationUnit {} {} 0] boundName [] [.internName "y"] 1
    boundName_admitted (by decide)
  have valid : inside.valid .names ⟨1, 1⟩ = true := by decide
  refine ⟨restored.1, valid, by decide, ?_⟩
  exact (restored.2 (.table .names) rfl ⟨1, 1⟩ valid (by decide)).2

end Examples

end Aburi.Cir.Full
