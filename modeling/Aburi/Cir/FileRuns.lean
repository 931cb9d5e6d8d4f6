import Aburi.Cir.CallsKeep

/-!
# Runs of a CIR file

The invariant of a file with open transactions, and what one call does to the states
that they restore: a mutator leaves them, a beginning transaction puts the present
state before them, a commit or a rollback takes the first one away.
-/

namespace Aburi.Cir.Full

open Aburi.Lib List Function

variable {contents : Contents}

/-- The places where ids come from. -/
inductive IdSpace where
  | table (table : Table)
  | types
  | valueExpressions

namespace IdSpace

@[reducible]
def Tag : IdSpace → Type
  | .table which => IdTag which
  | .types => TypeTag
  | .valueExpressions => ValueExprTag

def hasIds : IdSpace → Bool
  | .table which => which.hasIds
  | .types | .valueExpressions => true

end IdSpace

namespace File

variable (file : File contents)

def counters : IdSpace → List UInt32
  | .table table => file.generations table
  | .types => file.interned.typeGenerations
  | .valueExpressions => file.interned.valueExpressionGenerations

def extent : IdSpace → ℕ
  | .table table => file.size table
  | .types => file.interned.types.length
  | .valueExpressions => file.interned.valueExpressions.length

def validIn (space : IdSpace) (id : Handle space.Tag) : Bool :=
  Generations.live (file.counters space) (file.extent space) id

/-- Every record has an index of 32 bits. -/
def Fits : Prop := ∀ space : IdSpace, space.hasIds = true → file.extent space ≤ 2 ^ 32

/-- No counter of a free slot is at its end. -/
def CountersReady : Prop :=
  ∀ space : IdSpace, space.hasIds = true →
    ∀ generation ∈ (file.counters space).drop (file.extent space), generation ≠ 0xFFFFFFFF

end File

/-- The messages that were there when the transactions began. -/
def Diagnostics.begun (diagnostics : Diagnostics) (sizes : List ℕ) :
    List (List (SrcLoc × String)) :=
  sizes.map fun size => diagnostics.messages.take size

/-- Each size is at most the one before it, and the first is at most the bound. -/
def Descending : List ℕ → ℕ → Prop
  | [], _ => True
  | size :: rest, bound => size ≤ bound ∧ Descending rest size

theorem Descending.mono {sizes : List ℕ} {bound bound' : ℕ} (descending : Descending sizes bound)
    (larger : bound ≤ bound') : Descending sizes bound' := by
  cases sizes with
  | nil => trivial
  | cons size rest => exact ⟨le_trans descending.1 larger, descending.2⟩

theorem Descending.le {sizes : List ℕ} {bound : ℕ} (descending : Descending sizes bound) :
    ∀ size ∈ sizes, size ≤ bound := by
  induction sizes generalizing bound with
  | nil => exact fun size member => absurd member not_mem_nil
  | cons first rest ih =>
    intro size member
    cases mem_cons.mp member with
    | inl same => exact same ▸ descending.1
    | inr later => exact le_trans (ih descending.2 size later) descending.1

structure File.Bounded (file : File contents) : Prop where
  ordered : SizesOrdered file.transactions file.size
  interned : file.interned.Bounded
  depth : file.interned.transactions.length = file.transactions.length
  errorSizes : Descending (file.transactions.map Transaction.errorsSize) file.errors.messages.length
  noteSizes : Descending (file.transactions.map Transaction.notesSize) file.notes.messages.length
  errorFloor : file.errors.floor ≤ file.errors.messages.length
  noteFloor : file.notes.floor ≤ file.notes.messages.length
  known : ∀ space : IdSpace, space.hasIds = true → file.extent space ≤ (file.counters space).length

/-- The states that the open transactions restore, the innermost first. -/
structure Restored (contents : Contents) where
  graphs : List (Graph contents)
  tables : List InternTables
  errors : List (List (SrcLoc × String))
  notes : List (List (SrcLoc × String))

def File.restored (file : File contents) : Restored contents where
  graphs := file.unwound
  tables := file.interned.unwound
  errors := file.errors.begun (file.transactions.map Transaction.errorsSize)
  notes := file.notes.begun (file.transactions.map Transaction.notesSize)

def Restored.drop (restored : Restored contents) (count : ℕ) : Restored contents :=
  ⟨restored.graphs.drop count, restored.tables.drop count, restored.errors.drop count,
    restored.notes.drop count⟩

/-- The present state in front of those that are restored. -/
def File.restoredWith (file : File contents) : Restored contents :=
  ⟨file.graph :: file.unwound, file.interned.tables :: file.interned.unwound,
    file.errors.messages :: file.restored.errors, file.notes.messages :: file.restored.notes⟩

theorem Restored.drop_drop (restored : Restored contents) (first second : ℕ) :
    (restored.drop first).drop second = restored.drop (first + second) := by
  simp [Restored.drop, List.drop_drop]

section Slots

/-- How the slots of an id space change in one call. -/
def File.SlotsAdvance (file next : File contents) : Prop :=
  ∀ space : IdSpace, space.hasIds = true →
    Generations.Advances (file.counters space) (file.extent space) (next.counters space)
      (next.extent space)

variable {file next : File contents}

theorem ready (bounded : file.Bounded) (counters : file.CountersReady) {space : IdSpace}
    (named : space.hasIds = true) :
    Generations.Ready (file.counters space) (file.extent space) := by
  refine ⟨bounded.known space named, fun slot beyond stored => ?_⟩
  have found : ((file.counters space).drop (file.extent space))[slot - file.extent space]? =
      some 0xFFFFFFFF := by
    rw [getElem?_drop, Nat.add_sub_cancel' beyond, stored]
  exact counters space named _ (mem_of_getElem? found) rfl

theorem File.Keeps.uses (keeps : file.Keeps next) {space : IdSpace}
    (named : space.hasIds = true) :
    Generations.Uses (file.counters space) (file.extent space) (next.counters space)
      (next.extent space) := by
  cases space with
  | table table => exact keeps.slots table named
  | types => exact keeps.interned.typeSlots
  | valueExpressions => exact keeps.interned.expressionSlots

theorem File.Keeps.slotsAdvance (keeps : file.Keeps next) (bounded : file.Bounded)
    (counters : file.CountersReady) (fits : next.Fits) : file.SlotsAdvance next :=
  fun space named => (keeps.uses named).2 (ready bounded counters named) (fits space named)

end Slots

section Mutators

variable {file next : File contents}

theorem begun_of_extends {before after : Diagnostics} (extends_ : before.Extends after)
    {sizes : List ℕ} (descending : Descending sizes before.messages.length) :
    after.begun sizes = before.begun sizes := by
  apply map_congr_left
  intro size member
  obtain ⟨more, appended⟩ := extends_.messages
  rw [← appended, take_append_of_le_length (descending.le size member)]

section

variable {transactions transactions' : List (Transaction contents)}
  (marks : transactions'.map Transaction.mark = transactions.map Transaction.mark)
include marks

theorem map_errorsSize_of_marks :
    transactions'.map Transaction.errorsSize = transactions.map Transaction.errorsSize := by
  have projected := congrArg (List.map fun mark => mark.2.2.1) marks
  simpa [List.map_map, comp_def, Transaction.mark] using projected

theorem map_notesSize_of_marks :
    transactions'.map Transaction.notesSize = transactions.map Transaction.notesSize := by
  have projected := congrArg (List.map fun mark => mark.2.2.2) marks
  simpa [List.map_map, comp_def, Transaction.mark] using projected

end

theorem File.Keeps.restored (keeps : file.Keeps next) (bounded : file.Bounded)
    (fits : next.Fits) : next.restored = file.restored := by
  have internedFits : next.interned.Fits := ⟨fits .types rfl, fits .valueExpressions rfl⟩
  simp only [File.restored, keeps.kept bounded.ordered,
    (keeps.interned.kept bounded.interned internedFits).2,
    map_errorsSize_of_marks keeps.marks, map_notesSize_of_marks keeps.marks,
    begun_of_extends keeps.errors bounded.errorSizes,
    begun_of_extends keeps.notes bounded.noteSizes]

theorem File.Keeps.bounded (keeps : file.Keeps next) (bounded : file.Bounded)
    (counters : file.CountersReady) (fits : next.Fits) : next.Bounded := by
  have internedFits : next.interned.Fits := ⟨fits .types rfl, fits .valueExpressions rfl⟩
  refine ⟨sizesOrdered_of_marks keeps.marks keeps.grows bounded.ordered,
    (keeps.interned.kept bounded.interned internedFits).1, ?_, ?_, ?_,
    keeps.errors.floor bounded.errorFloor, keeps.notes.floor bounded.noteFloor, ?_⟩
  · have lengths := congrArg List.length keeps.marks
    simp only [length_map] at lengths
    rw [keeps.interned.depth, bounded.depth, lengths]
  · rw [map_errorsSize_of_marks keeps.marks]
    exact bounded.errorSizes.mono keeps.errors.messages.length_le
  · rw [map_notesSize_of_marks keeps.marks]
    exact bounded.noteSizes.mono keeps.notes.messages.length_le
  · exact fun space named => (keeps.slotsAdvance bounded counters fits space named).known

end Mutators

section Brackets

variable {file : File contents}

theorem slotsAdvance_refl (bounded : file.Bounded) {next : File contents}
    (counters : next.counters = file.counters) (extents : next.extent = file.extent) :
    file.SlotsAdvance next := by
  intro space named
  rw [counters, extents]
  refine ⟨le_refl _, bounded.known space named, fun _ _ => rfl, fun _ _ => rfl, ?_⟩
  intro slot generation lower upper
  omega

theorem beginTransaction_restored (file : File contents) :
    file.beginTransaction.2.restored = file.restoredWith := by
  have restores : Transaction.undo
      { id := file.nextTransactionId
        sizes := file.size
        settings := file.graph.settings
        errorsSize := file.errors.messages.length
        notesSize := file.notes.messages.length } file.graph = file.graph := by
    have rows : (Transaction.undo
        { id := file.nextTransactionId
          sizes := file.size
          settings := file.graph.settings
          errorsSize := file.errors.messages.length
          notesSize := file.notes.messages.length } file.graph).rows = file.graph.rows := by
      funext table
      apply ext_getElem?
      intro slot
      rw [getElem?_undo]
      split
      · have unchanged (record : Record contents table) :
            undoRecord [] table slot record = record := by
          cases table <;> rfl
        simp [savedAt, unchanged]
      case isFalse outside =>
        have beyond : (file.graph.rows table).length ≤ slot := Nat.le_of_not_lt outside
        rw [List.getElem?_eq_none beyond]
    simp only [Transaction.undo] at rows ⊢
    rw [rows]
    rfl
  have graphs : file.beginTransaction.2.unwound = file.graph :: file.unwound := by
    calc
      file.beginTransaction.2.unwound =
          Transaction.undo _ file.graph :: unwind Transaction.undo file.transactions
            (Transaction.undo _ file.graph) := rfl
      _ = file.graph :: file.unwound := by rw [restores, File.unwound]
  have tables : file.beginTransaction.2.interned.unwound =
      file.interned.tables :: file.interned.unwound := Cir.beginTransaction_unwound file.interned
  simp only [File.restored, graphs, tables, File.restoredWith]
  simp [File.beginTransaction, Diagnostics.begun]

theorem beginTransaction_fullBounded (bounded : file.Bounded) :
    file.beginTransaction.2.Bounded := by
  refine ⟨⟨fun _ => le_refl _, bounded.ordered⟩, Cir.beginTransaction_bounded bounded.interned,
    ?_, ⟨le_refl _, bounded.errorSizes⟩, ⟨le_refl _, bounded.noteSizes⟩, bounded.errorFloor,
    bounded.noteFloor, bounded.known⟩
  simp [File.beginTransaction, Cir.File.beginTransaction, bounded.depth]

/-- The transaction with the id is the innermost one. -/
def File.IsInnermost (file : File contents) (id : TransactionId) : Prop :=
  ∃ top rest, file.transactions = top :: rest ∧ top.id = id

/-- The transaction around the innermost one can take its notes over. -/
def File.CommitCovered (file : File contents) : Prop :=
  ∀ child parent rest, file.transactions = child :: parent :: rest → parent.Mergeable child

section

variable (bounded : file.Bounded) {id : TransactionId} (innermost : file.IsInnermost id)
include bounded innermost

theorem commitTransaction_restored (covered : file.CommitCovered) :
    (file.commitTransaction id).restored = file.restored.drop 1 := by
  obtain ⟨child, rest, transactions, named⟩ := innermost
  have ordered := bounded.ordered
  rw [transactions] at ordered
  have committed : file.commitTransaction id =
      { file with
        transactions := File.mergeCommittedTransaction child rest
        interned := file.interned.commitTransaction } := by
    rw [File.commitTransaction, transactions]
    exact if_pos named
  have tables := (Cir.commitTransaction_bounded bounded.interned).2
  rw [committed]
  cases rest with
  | nil =>
    simp [File.restored, Restored.drop, File.unwound, File.mergeCommittedTransaction,
      transactions, unwind, tables, Diagnostics.begun]
  | cons parent outer =>
    have merged := undo_mergeCommitted (covered child parent outer transactions)
      ordered.2.1 file.graph
    have graphs : unwind Transaction.undo (parent.mergeCommitted child :: outer) file.graph =
        (unwind Transaction.undo (child :: parent :: outer) file.graph).tail :=
      unwind_merge _ merged outer
    simp only [File.restored, Restored.drop, File.unwound, File.mergeCommittedTransaction,
      transactions, graphs, tables, drop_one]
    rfl

theorem commitTransaction_fullBounded : (file.commitTransaction id).Bounded := by
  obtain ⟨child, rest, transactions, named⟩ := innermost
  have ordered := bounded.ordered
  have errorSizes := bounded.errorSizes
  have noteSizes := bounded.noteSizes
  have depth := bounded.depth
  rw [transactions] at ordered errorSizes noteSizes depth
  have committed : file.commitTransaction id =
      { file with
        transactions := File.mergeCommittedTransaction child rest
        interned := file.interned.commitTransaction } := by
    rw [File.commitTransaction, transactions]
    exact if_pos named
  rw [committed]
  have internedDepth : file.interned.commitTransaction.transactions.length = rest.length := by
    simp only [Cir.File.commitTransaction]
    cases interned : file.interned.transactions with
    | nil => simp [interned] at depth
    | cons inner outer =>
      rw [interned, length_cons, length_cons, Nat.add_right_cancel_iff] at depth
      cases outer with
      | nil | cons parent others => simpa [Cir.File.mergeCommittedTransaction] using depth
  refine ⟨?_, (Cir.commitTransaction_bounded bounded.interned).1, ?_, ?_, ?_,
    bounded.errorFloor, bounded.noteFloor, bounded.known⟩
  · cases rest with
    | nil => trivial
    | cons parent outer =>
      refine ⟨fun table => ?_, ordered.2.2⟩
      exact le_trans (ordered.2.1 table) (ordered.1 table)
  · rw [internedDepth]
    cases rest <;> rfl
  · cases rest with
    | nil => trivial
    | cons parent outer => exact ⟨le_trans errorSizes.2.1 errorSizes.1, errorSizes.2.2⟩
  · cases rest with
    | nil => trivial
    | cons parent outer => exact ⟨le_trans noteSizes.2.1 noteSizes.1, noteSizes.2.2⟩

end

theorem begun_rollback {diagnostics : Diagnostics} {size : ℕ} {rest : List ℕ}
    (descending : Descending rest size) :
    (diagnostics.rollback size).begun rest = diagnostics.begun rest := by
  apply map_congr_left
  intro earlier member
  have below := descending.le earlier member
  rw [Diagnostics.rollback, take_take, Nat.min_eq_left (by omega)]

theorem length_rollback {diagnostics : Diagnostics} {size : ℕ}
    (below : size ≤ diagnostics.messages.length)
    (pinned : diagnostics.floor ≤ diagnostics.messages.length) :
    (diagnostics.rollback size).messages.length = max size diagnostics.floor := by
  rw [Diagnostics.rollback, length_take, Nat.min_eq_left (by omega)]

variable {id : TransactionId}

theorem rollbackTransaction_eq {top : Transaction contents} {rest : List (Transaction contents)}
    (transactions : file.transactions = top :: rest) (named : top.id = id) :
    file.rollbackTransaction id =
      { file with
        graph := top.undo file.graph
        transactions := rest
        interned := file.interned.rollbackTransaction
        errors := file.errors.rollback top.errorsSize
        notes := file.notes.rollback top.notesSize } := by
  rw [File.rollbackTransaction, transactions]
  exact if_pos named

theorem rollbackTransaction_restored (bounded : file.Bounded)
    (innermost : file.IsInnermost id) :
    (file.rollbackTransaction id).restored = file.restored.drop 1 := by
  obtain ⟨top, rest, transactions, named⟩ := innermost
  have errorSizes := bounded.errorSizes
  have noteSizes := bounded.noteSizes
  rw [transactions] at errorSizes noteSizes
  have tables := (Cir.rollbackTransaction_bounded bounded.interned).2.1
  rw [rollbackTransaction_eq transactions named]
  simp only [File.restored, Restored.drop, File.unwound, transactions, tables, drop_one,
    begun_rollback errorSizes.2, begun_rollback noteSizes.2]
  rfl

/-- The sizes that a rollback leaves are those at the beginning of the transaction. -/
theorem length_undo {top : Transaction contents} {graph : Graph contents} {table : Table}
    (below : top.sizes table ≤ (graph.rows table).length) :
    ((top.undo graph).rows table).length = top.sizes table := by
  have lengths : (undoTableDeltas top.declContextDeltas table
      (restoreRows (top.saved table) (graph.rows table))).length = (graph.rows table).length := by
    cases table with
    | declContexts =>
      have kept (deltas : List DeclContextDelta) (contexts : List DeclContext) :
          (undoDeltas deltas contexts).length = contexts.length := by
        induction deltas with
        | nil => rfl
        | cons delta others ih =>
          calc
            (undoDeltas (delta :: others) contexts).length =
                ((undoDeltas others contexts).modify delta.context
                  fun context => undoChange context delta.change).length := rfl
            _ = contexts.length := by rw [List.length_modify, ih]
      exact (kept _ _).trans (length_restoreRows _ _)
    | _ => exact length_restoreRows _ _
  simp only [Transaction.undo, length_take, lengths, Nat.min_eq_left below]

theorem rollbackTransaction_extent (bounded : file.Bounded) (innermost : file.IsInnermost id)
    (space : IdSpace) :
    (file.rollbackTransaction id).extent space ≤ file.extent space := by
  obtain ⟨top, rest, transactions, named⟩ := innermost
  have ordered := bounded.ordered
  rw [transactions] at ordered
  rw [rollbackTransaction_eq transactions named]
  cases space with
  | table table =>
    have length := length_undo (ordered.1 table)
    calc
      ((top.undo file.graph).rows table).length = top.sizes table := length
      _ ≤ file.size table := ordered.1 table
  | types | valueExpressions =>
    simp only [File.extent, Cir.File.rollbackTransaction]
    split
    · exact le_refl _
    · exact length_take_le' _ _

theorem rollbackTransaction_counters (file : File contents) (id : TransactionId) :
    (file.rollbackTransaction id).counters = file.counters := by
  have internedTypes : file.interned.rollbackTransaction.typeGenerations =
      file.interned.typeGenerations := by
    rw [Cir.File.rollbackTransaction]
    split <;> rfl
  have internedExpressions : file.interned.rollbackTransaction.valueExpressionGenerations =
      file.interned.valueExpressionGenerations := by
    rw [Cir.File.rollbackTransaction]
    split <;> rfl
  rw [File.rollbackTransaction]
  split
  · rfl
  · split
    · funext space
      cases space with
      | table table => rfl
      | types => exact internedTypes
      | valueExpressions => exact internedExpressions
    · rfl

theorem rollbackTransaction_fullBounded (bounded : file.Bounded)
    (innermost : file.IsInnermost id) : (file.rollbackTransaction id).Bounded := by
  have shrinks := rollbackTransaction_extent bounded innermost
  have counters := rollbackTransaction_counters file id
  obtain ⟨top, rest, transactions, named⟩ := innermost
  have ordered := bounded.ordered
  have errorSizes := bounded.errorSizes
  have noteSizes := bounded.noteSizes
  have depth := bounded.depth
  rw [transactions] at ordered errorSizes noteSizes depth
  have known (space : IdSpace) (hasIds : space.hasIds = true) :
      (file.rollbackTransaction id).extent space ≤
        ((file.rollbackTransaction id).counters space).length := by
    rw [counters]
    exact le_trans (shrinks space) (bounded.known space hasIds)
  have restored := rollbackTransaction_eq transactions named
  rw [restored] at known ⊢
  refine ⟨?_, (Cir.rollbackTransaction_bounded bounded.interned).1, ?_, ?_, ?_, ?_, ?_, known⟩
  · have sizes : (File.size { file with
        graph := top.undo file.graph
        transactions := rest
        interned := file.interned.rollbackTransaction
        errors := file.errors.rollback top.errorsSize
        notes := file.notes.rollback top.notesSize }) = top.sizes := by
      funext table
      exact length_undo (ordered.1 table)
    rw [sizes]
    exact ordered.2
  · cases interned : file.interned.transactions with
    | nil => simp [interned] at depth
    | cons inner outer =>
      rw [interned, length_cons, length_cons, Nat.add_right_cancel_iff] at depth
      rw [(Cir.rollbackTransaction_tables interned).2, depth]
  · apply errorSizes.2.mono
    rw [length_rollback errorSizes.1 bounded.errorFloor]
    exact le_max_left _ _
  · apply noteSizes.2.mono
    rw [length_rollback noteSizes.1 bounded.noteFloor]
    exact le_max_left _ _
  · rw [length_rollback errorSizes.1 bounded.errorFloor]
    exact le_max_right _ _
  · rw [length_rollback noteSizes.1 bounded.noteFloor]
    exact le_max_right _ _

end Brackets

end Aburi.Cir.Full
