import Aburi.Cir.InternExprSound
import Aburi.Lib.Journal

/-!
# Taking interned types and expressions back

What the open transactions restore of the two interning tables is left as it is by
every call that interns: a new record comes after the marks, and its index entry is
noted and not yet in the index.
-/

namespace Aburi.Cir

open Aburi.Lib List

/-- What a rollback brings back: the tables and their indexes without the generations. -/
structure InternTables where
  types : List CirType
  typePayloads : List TypePayload
  typeIndex : List (HashEntry TypeTag)
  valueExpressions : List TemplateValueExpression
  valueExpressionIndex : List (HashEntry ValueExprTag)

def File.tables (file : File) : InternTables :=
  ⟨file.types, file.typePayloads, file.typeIndex, file.valueExpressions, file.valueExpressionIndex⟩

def Transaction.undo (transaction : Transaction) (tables : InternTables) : InternTables where
  types := tables.types.take transaction.typesSize
  typePayloads := tables.typePayloads.take transaction.typePayloadsSize
  typeIndex := transaction.insertedTypeEntries.foldl List.erase tables.typeIndex
  valueExpressions := tables.valueExpressions.take transaction.valueExpressionsSize
  valueExpressionIndex :=
    transaction.insertedValueExpressionEntries.foldl List.erase tables.valueExpressionIndex

/-- The tables that the open transactions restore, the innermost first. -/
def File.unwound (file : File) : List InternTables :=
  unwind Transaction.undo file.transactions file.tables

/-- The entries name slots below the size. -/
def EntriesBelow {Tag : Type} (size : ℕ) (entries : List (HashEntry Tag)) : Prop :=
  ∀ entry ∈ entries, entry.2.index.toNat < size

variable {Tag : Type} {size : ℕ} {entries : List (HashEntry Tag)}

theorem EntriesBelow.mono {size' : ℕ} (below : EntriesBelow size entries) (larger : size ≤ size') :
    EntriesBelow size' entries :=
  fun entry member => lt_of_lt_of_le (below entry member) larger

theorem EntriesBelow.append {first second : List (HashEntry Tag)} (below : EntriesBelow size first)
    (below' : EntriesBelow size second) :
    EntriesBelow size (first ++ second) := by
  intro entry member
  cases mem_append.mp member with
  | inl inFirst => exact below entry inFirst
  | inr inSecond => exact below' entry inSecond

def InternTables.Indexed (tables : InternTables) : Prop :=
  EntriesBelow tables.types.length tables.typeIndex ∧
    EntriesBelow tables.valueExpressions.length tables.valueExpressionIndex

/-- The marks of the transactions follow each other, and what a transaction noted lies
below the next mark. -/
def MarksOrdered : List Transaction → ℕ → ℕ → ℕ → Prop
  | [], _, _, _ => True
  | transaction :: rest, types, payloads, expressions =>
    transaction.typesSize ≤ types ∧ transaction.typePayloadsSize ≤ payloads ∧
      transaction.valueExpressionsSize ≤ expressions ∧
      EntriesBelow types transaction.insertedTypeEntries ∧
      EntriesBelow expressions transaction.insertedValueExpressionEntries ∧
      MarksOrdered rest transaction.typesSize transaction.typePayloadsSize
        transaction.valueExpressionsSize

structure File.Bounded (file : File) : Prop where
  indexed : file.tables.Indexed
  restored : ∀ tables ∈ file.unwound, tables.Indexed
  ordered : MarksOrdered file.transactions file.types.length file.typePayloads.length
    file.valueExpressions.length

/-- A call keeps what the open transactions restore, as long as indices fit. -/
structure File.Keeps (file next : File) : Prop where
  depth : next.transactions.length = file.transactions.length
  typeSlots : Generations.Uses file.typeGenerations file.types.length
    next.typeGenerations next.types.length
  expressionSlots : Generations.Uses file.valueExpressionGenerations
    file.valueExpressions.length next.valueExpressionGenerations next.valueExpressions.length
  kept : file.Bounded → next.Fits → next.Bounded ∧ next.unwound = file.unwound

namespace File.Keeps

theorem refl (file : File) : file.Keeps file :=
  ⟨rfl, .refl _ _, .refl _ _, fun bounded _ => ⟨bounded, rfl⟩⟩

theorem fits {file next : File} (keeps : file.Keeps next) (fits : next.Fits) : file.Fits :=
  ⟨le_trans keeps.typeSlots.1 fits.1, le_trans keeps.expressionSlots.1 fits.2⟩

theorem trans {first middle last : File} (start : first.Keeps middle)
    (finish : middle.Keeps last) : first.Keeps last := by
  refine ⟨finish.depth.trans start.depth, start.typeSlots.trans finish.typeSlots,
    start.expressionSlots.trans finish.expressionSlots, ?_⟩
  intro bounded fits
  obtain ⟨middleBounded, middleSame⟩ := start.kept bounded (finish.fits fits)
  obtain ⟨lastBounded, lastSame⟩ := finish.kept middleBounded fits
  exact ⟨lastBounded, lastSame.trans middleSame⟩

end File.Keeps

theorem not_mem_of_below {entry : HashEntry Tag} (below : EntriesBelow size entries)
    (atEnd : entry.2.index.toNat = size) : entry ∉ entries := by
  intro member
  have := below entry member
  omega

/-- With no transaction open there is nothing to unwind. -/
theorem bounded_of_closed {file : File} (current : file.tables.Indexed)
    (closed : file.transactions = []) : file.Bounded ∧ file.unwound = [] := by
  refine ⟨⟨current, ?_, ?_⟩, ?_⟩
  · simp [File.unwound, closed, unwind]
  · rw [closed]
    trivial
  · rw [File.unwound, closed, unwind]

section Adding

variable {file : File}

theorem handle_index (generations : List UInt32) (fits : size + 1 ≤ 2 ^ 32) :
    (Generations.handle generations size : Handle Tag).index.toNat = size :=
  Generations.toNat_index (by omega)

theorem entriesBelow_new {entry : HashEntry Tag} (below : EntriesBelow size entries)
    (atEnd : entry.2.index.toNat = size) : EntriesBelow (size + 1) (entries ++ [entry]) := by
  apply (below.mono (Nat.le_succ size)).append
  intro other member
  rw [mem_singleton.mp member, atEnd]
  exact Nat.lt_succ_self size

/-- With an entry noted in the open transaction, the same tables are restored. -/
theorem File.Bounded.note {after : File} (bounded : file.Bounded)
    (note : Transaction → Transaction) (current : after.tables.Indexed)
    (noted : after.transactions = file.transactions.modifyHead note)
    (kept : ∀ top rest, MarksOrdered (top :: rest) file.types.length file.typePayloads.length
      file.valueExpressions.length →
      (note top).undo after.tables = top.undo file.tables ∧
        MarksOrdered (note top :: rest) after.types.length after.typePayloads.length
          after.valueExpressions.length) :
    after.Bounded ∧ after.unwound = file.unwound := by
  cases transactions : file.transactions with
  | nil =>
    rw [transactions] at noted
    obtain ⟨isBounded, nothing⟩ := bounded_of_closed current noted
    exact ⟨isBounded, by rw [nothing, File.unwound, transactions, unwind]⟩
  | cons top rest =>
    rw [transactions] at noted
    obtain ⟨restores, ordered⟩ := kept top rest (transactions ▸ bounded.ordered)
    have same : after.unwound = file.unwound := by
      rw [File.unwound, File.unwound, noted, transactions]
      exact unwind_top _ restores rest
    refine ⟨⟨current, ?_, ?_⟩, same⟩
    · rw [same]
      exact bounded.restored
    · rw [noted]
      exact ordered

theorem addType_keeps (file : File) (hash : UInt64) (spec : TypeSpec) :
    file.Keeps (file.addType hash spec).2 := by
  have noted : (file.addType hash spec).2.transactions = file.transactions.modifyHead fun top =>
      { top with insertedTypeEntries := top.insertedTypeEntries ++ [(hash, file.nextTypeId)] } := by
    cases transactions : file.transactions <;> simp [File.addType, File.noteTypeEntry, transactions]
  refine ⟨?_, ?_, .refl _ _, ?_⟩
  · rw [noted, length_modifyHead]
  · simp only [File.addType, File.nextTypeId, Generations.handle, length_append, length_singleton]
    exact Generations.uses_next _ _
  · intro bounded fits
    have room : file.types.length + 1 ≤ 2 ^ 32 := by
      simpa [File.addType] using fits.1
    have atEnd : file.nextTypeId.index.toNat = file.types.length := handle_index _ room
    have new : (hash, file.nextTypeId) ∉ file.typeIndex := not_mem_of_below bounded.indexed.1 atEnd
    refine bounded.note _ ⟨?_, bounded.indexed.2⟩ noted ?_
    · simpa [File.addType, File.tables] using entriesBelow_new bounded.indexed.1 atEnd
    rintro top rest ⟨types, payloads, expressions, typeEntries, expressionEntries, earlier⟩
    constructor
    · simp only [Transaction.undo, File.tables, File.addType, InternTables.mk.injEq]
      refine ⟨take_append_of_le_length types, take_append_of_le_length payloads, ?_, trivial, trivial⟩
      exact foldl_erase_append_new new (not_mem_of_below typeEntries atEnd)
    · simp only [File.addType, length_append, length_singleton]
      refine ⟨by simp only; omega, by simp only; omega, expressions, ?_,
        expressionEntries, earlier⟩
      exact entriesBelow_new typeEntries atEnd

theorem addValueExpression_keeps (file : File) (hash : UInt64)
    (expression : TemplateValueExpression) :
    file.Keeps (file.addValueExpression hash expression).2 := by
  have noted : (file.addValueExpression hash expression).2.transactions =
      file.transactions.modifyHead fun top =>
        { top with
          insertedValueExpressionEntries :=
            top.insertedValueExpressionEntries ++ [(hash, file.nextValueExprId)] } := by
    cases transactions : file.transactions <;>
      simp [File.addValueExpression, File.noteValueExpressionEntry, transactions]
  refine ⟨?_, .refl _ _, ?_, ?_⟩
  · rw [noted, length_modifyHead]
  · simp only [File.addValueExpression, File.nextValueExprId, Generations.handle,
      length_append, length_singleton]
    exact Generations.uses_next _ _
  · intro bounded fits
    have room : file.valueExpressions.length + 1 ≤ 2 ^ 32 := by
      simpa [File.addValueExpression] using fits.2
    have atEnd : file.nextValueExprId.index.toNat = file.valueExpressions.length :=
      handle_index _ room
    have new : (hash, file.nextValueExprId) ∉ file.valueExpressionIndex :=
      not_mem_of_below bounded.indexed.2 atEnd
    refine bounded.note _ ⟨bounded.indexed.1, ?_⟩ noted ?_
    · simpa [File.addValueExpression, File.tables] using entriesBelow_new bounded.indexed.2 atEnd
    rintro top rest ⟨types, payloads, expressions, typeEntries, expressionEntries, earlier⟩
    constructor
    · simp only [Transaction.undo, File.tables, File.addValueExpression, InternTables.mk.injEq]
      refine ⟨trivial, trivial, trivial, take_append_of_le_length expressions, ?_⟩
      exact foldl_erase_append_new new (not_mem_of_below expressionEntries atEnd)
    · simp only [File.addValueExpression, length_append, length_singleton]
      refine ⟨types, payloads, by simp only; omega, typeEntries, ?_, earlier⟩
      exact entriesBelow_new expressionEntries atEnd

end Adding

section Calls

variable (stringHash : String → UInt64)

theorem internType_keeps (file : File) (spec : TypeSpec) :
    file.Keeps (file.internType stringHash spec).2 := by
  rw [File.internType]
  split
  · simp only
    split
    · exact .refl file
    · exact addType_keeps file _ spec
  · exact .refl file

theorem keeps_walk : File.WalkRelation stringHash File.Keeps where
  refl := .refl
  trans := .trans
  step file expression := by
    rw [File.internCanonicalized]
    split
    · exact .refl file
    · simp only
      split
      · exact .refl file
      · exact addValueExpression_keeps file _ _

variable {stringHash} {file : File}

theorem beginTransaction_unwound (file : File) :
    file.beginTransaction.unwound = file.tables :: file.unwound := by
  have restores : Transaction.undo
      { typesSize := file.types.length
        typePayloadsSize := file.typePayloads.length
        valueExpressionsSize := file.valueExpressions.length } file.tables = file.tables := by
    simp [Transaction.undo, File.tables]
  calc
    file.beginTransaction.unwound =
        Transaction.undo _ file.tables :: unwind Transaction.undo file.transactions
          (Transaction.undo _ file.tables) := rfl
    _ = file.tables :: file.unwound := by rw [restores, File.unwound]

theorem beginTransaction_bounded (bounded : file.Bounded) : file.beginTransaction.Bounded := by
  refine ⟨bounded.indexed, ?_, ?_⟩
  · rw [beginTransaction_unwound]
    intro tables member
    cases mem_cons.mp member with
    | inl same => exact same ▸ bounded.indexed
    | inr older => exact bounded.restored tables older
  · refine ⟨le_refl _, le_refl _, le_refl _, ?_, ?_, bounded.ordered⟩
    · exact fun entry member => absurd member not_mem_nil
    · exact fun entry member => absurd member not_mem_nil

theorem undo_merged {parent child : Transaction} {types payloads expressions : ℕ}
    {rest : List Transaction}
    (ordered : MarksOrdered (child :: parent :: rest) types payloads expressions)
    (tables : InternTables) :
    Transaction.undo
        { parent with
          insertedTypeEntries := parent.insertedTypeEntries ++ child.insertedTypeEntries
          insertedValueExpressionEntries :=
            parent.insertedValueExpressionEntries ++ child.insertedValueExpressionEntries }
        tables = parent.undo (child.undo tables) := by
  obtain ⟨-, -, -, -, -, types, payloads, expressions, -⟩ := ordered
  simp only [Transaction.undo, take_take, foldl_erase_append, Nat.min_eq_left types,
    Nat.min_eq_left payloads, Nat.min_eq_left expressions]

theorem commitTransaction_bounded (bounded : file.Bounded) :
    file.commitTransaction.Bounded ∧ file.commitTransaction.unwound = file.unwound.tail := by
  have current : file.commitTransaction.tables = file.tables := rfl
  have ordered := bounded.ordered
  cases transactions : file.transactions with
  | nil =>
    have closed : file.commitTransaction.transactions = [] := by
      simp [File.commitTransaction, File.mergeCommittedTransaction, transactions]
    refine ⟨(bounded_of_closed (current ▸ bounded.indexed) closed).1, ?_⟩
    simp [File.unwound, closed, transactions, unwind]
  | cons child outer =>
    rw [transactions] at ordered
    cases outer with
    | nil =>
      have closed : file.commitTransaction.transactions = [] := by
        simp [File.commitTransaction, File.mergeCommittedTransaction, transactions]
      refine ⟨(bounded_of_closed (current ▸ bounded.indexed) closed).1, ?_⟩
      simp [File.unwound, closed, transactions, unwind]
    | cons parent rest =>
      have merged : file.commitTransaction.transactions =
          { parent with
            insertedTypeEntries := parent.insertedTypeEntries ++ child.insertedTypeEntries
            insertedValueExpressionEntries :=
              parent.insertedValueExpressionEntries ++
                child.insertedValueExpressionEntries } :: rest := by
        simp [File.commitTransaction, File.mergeCommittedTransaction, transactions]
      have tail : file.commitTransaction.unwound = file.unwound.tail := by
        rw [File.unwound, File.unwound, merged, current, transactions]
        exact unwind_merge _ (undo_merged ordered file.tables) rest
      obtain ⟨types, payloads, expressions, typeEntries, expressionEntries, parentTypes,
        parentPayloads, parentExpressions, parentTypeEntries, parentExpressionEntries,
        earlier⟩ := ordered
      refine ⟨⟨bounded.indexed, ?_, ?_⟩, tail⟩
      · rw [tail]
        exact fun tables member => bounded.restored tables (mem_of_mem_tail member)
      · rw [merged]
        refine ⟨le_trans parentTypes types, le_trans parentPayloads payloads,
          le_trans parentExpressions expressions, ?_, ?_, earlier⟩
        · exact (parentTypeEntries.mono types).append typeEntries
        · exact (parentExpressionEntries.mono expressions).append expressionEntries

theorem rollbackTransaction_tables {top : Transaction} {rest : List Transaction}
    (transactions : file.transactions = top :: rest) :
    file.rollbackTransaction.tables = top.undo file.tables ∧
      file.rollbackTransaction.transactions = rest := by
  simp [File.rollbackTransaction, transactions, File.tables, Transaction.undo]

theorem rollbackTransaction_bounded (bounded : file.Bounded) :
    file.rollbackTransaction.Bounded ∧
      file.rollbackTransaction.unwound = file.unwound.tail ∧
      ∀ tables ∈ file.unwound.head?, file.rollbackTransaction.tables = tables := by
  cases transactions : file.transactions with
  | nil =>
    have unchanged : file.rollbackTransaction = file := by
      simp [File.rollbackTransaction, transactions]
    rw [unchanged]
    refine ⟨bounded, ?_, ?_⟩ <;> simp [File.unwound, transactions, unwind]
  | cons top rest =>
    obtain ⟨tables, left⟩ := rollbackTransaction_tables transactions
    have unwound : file.unwound = top.undo file.tables ::
        unwind Transaction.undo rest (top.undo file.tables) := by
      rw [File.unwound, transactions]
      rfl
    have tail : file.rollbackTransaction.unwound = file.unwound.tail := by
      rw [File.unwound, left, tables, unwound]
      rfl
    have ordered := bounded.ordered
    rw [transactions] at ordered
    obtain ⟨types, payloads, expressions, -, -, earlier⟩ := ordered
    refine ⟨⟨?_, ?_, ?_⟩, tail, ?_⟩
    · rw [tables]
      exact bounded.restored _ (by rw [unwound]; exact mem_cons_self)
    · rw [tail]
      exact fun tables member => bounded.restored tables (mem_of_mem_tail member)
    · rw [left]
      simpa [File.rollbackTransaction, transactions, Nat.min_eq_left types,
        Nat.min_eq_left payloads, Nat.min_eq_left expressions] using earlier
    · rw [unwound]
      intro restored member
      rw [tables]
      simpa using member

theorem initial_bounded : ({} : File).Bounded := by
  refine ⟨⟨?_, ?_⟩, ?_, trivial⟩
  · exact fun entry member => absurd member not_mem_nil
  · exact fun entry member => absurd member not_mem_nil
  · exact fun tables member => absurd member not_mem_nil

end Calls

end Aburi.Cir
