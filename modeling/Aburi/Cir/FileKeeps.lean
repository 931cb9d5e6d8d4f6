import Aburi.Cir.FileUndo
import Aburi.Cir.InternUndo

/-!
# Calls that the open transactions can take back

`File.Keeps` says that a change of a file leaves what each open transaction restores
as it is.  It holds of every single write that is noted first, and it is transitive,
so that it holds of the calls that are made of such writes.
-/

namespace Aburi.Cir.Full

open Aburi.Lib Function Bool

variable {contents : Contents}

/-- The tables whose records have ids. -/
def Table.hasIds : Table → Bool
  | .coroutineFacts | .payloads | .operands | .moduleAsm | .warnings => false
  | _ => true

/-- The graphs that the open transactions restore, the innermost first. -/
def File.unwound (file : File contents) : List (Graph contents) :=
  unwind Transaction.undo file.transactions file.graph

/-- No table was longer when a transaction began than when the next one did. -/
def SizesOrdered : List (Transaction contents) → (Table → ℕ) → Prop
  | [], _ => True
  | transaction :: rest, sizes =>
    (∀ table, transaction.sizes table ≤ sizes table) ∧ SizesOrdered rest transaction.sizes

/-- What a transaction remembers for good. -/
def Transaction.mark (transaction : Transaction contents) : TransactionId × (Table → ℕ) × ℕ × ℕ :=
  (transaction.id, transaction.sizes, transaction.errorsSize, transaction.notesSize)

theorem Transaction.sizes_of_mark {first second : Transaction contents}
    (same : first.mark = second.mark) : first.sizes = second.sizes := by
  simp only [Transaction.mark, Prod.mk.injEq] at same
  exact same.2.1

structure Diagnostics.Extends (before after : Diagnostics) : Prop where
  messages : before.messages <+: after.messages
  floor : before.floor ≤ before.messages.length → after.floor ≤ after.messages.length

theorem Diagnostics.Extends.refl (diagnostics : Diagnostics) :
    diagnostics.Extends diagnostics :=
  ⟨List.prefix_rfl, id⟩

theorem Diagnostics.Extends.trans {first middle last : Diagnostics}
    (start : first.Extends middle) (finish : middle.Extends last) : first.Extends last :=
  ⟨start.messages.trans finish.messages, fun pinned => finish.floor (start.floor pinned)⟩

structure File.Keeps (file next : File contents) : Prop where
  marks : next.transactions.map Transaction.mark = file.transactions.map Transaction.mark
  grows : ∀ table, file.size table ≤ next.size table
  slots : ∀ table, table.hasIds = true →
    Generations.Uses (file.generations table) (file.size table) (next.generations table)
      (next.size table)
  kept : SizesOrdered file.transactions file.size → next.unwound = file.unwound
  interned : file.interned.Keeps next.interned
  errors : file.errors.Extends next.errors
  notes : file.notes.Extends next.notes

theorem sizesOrdered_of_marks {transactions transactions' : List (Transaction contents)}
    {sizes sizes' : Table → ℕ}
    (marks : transactions'.map Transaction.mark = transactions.map Transaction.mark)
    (grows : ∀ table, sizes table ≤ sizes' table)
    (ordered : SizesOrdered transactions sizes) : SizesOrdered transactions' sizes' := by
  induction transactions generalizing transactions' sizes sizes' with
  | nil =>
    have empty : transactions' = [] := by simpa using marks
    rw [empty]
    trivial
  | cons transaction rest ih =>
    cases transactions' with
    | nil => simp at marks
    | cons transaction' rest' =>
      simp only [List.map_cons, List.cons.injEq] at marks
      have same := Transaction.sizes_of_mark marks.1
      refine ⟨fun table => ?_, ?_⟩
      · rw [same]
        exact le_trans (ordered.1 table) (grows table)
      · exact ih marks.2 (fun table => by rw [same]) ordered.2

namespace File.Keeps

theorem refl (file : File contents) : file.Keeps file :=
  ⟨rfl, fun _ => le_refl _, fun _ _ => .refl _ _, fun _ => rfl, .refl _, .refl _, .refl _⟩

theorem trans {first middle last : File contents} (start : first.Keeps middle)
    (finish : middle.Keeps last) : first.Keeps last := by
  refine ⟨finish.marks.trans start.marks,
    fun table => le_trans (start.grows table) (finish.grows table),
    fun table named => (start.slots table named).trans (finish.slots table named), ?_,
    start.interned.trans finish.interned, start.errors.trans finish.errors,
    start.notes.trans finish.notes⟩
  intro ordered
  have between := sizesOrdered_of_marks start.marks start.grows ordered
  exact (finish.kept between).trans (start.kept ordered)

end File.Keeps

variable {change : Transaction contents → Transaction contents}

theorem map_mark_modifyHead (marks : ∀ transaction, (change transaction).mark = transaction.mark)
    (transactions : List (Transaction contents)) :
    (transactions.modifyHead change).map Transaction.mark = transactions.map Transaction.mark := by
  cases transactions with
  | nil => rfl
  | cons transaction rest => simp [marks]

/-- A change of the graph that the innermost transaction takes back. -/
theorem unwound_of_undo {file next : File contents}
    {change : Transaction contents → Transaction contents}
    (transactions : next.transactions = file.transactions.modifyHead change)
    (undone : ∀ top, (∀ table, top.sizes table ≤ file.size table) →
      file.transactions.head? = some top →
      (change top).undo next.graph = top.undo file.graph)
    (ordered : SizesOrdered file.transactions file.size) : next.unwound = file.unwound := by
  rw [File.unwound, File.unwound, transactions]
  cases open_ : file.transactions with
  | nil => rfl
  | cons top rest =>
    rw [open_] at ordered
    exact unwind_top _ (undone top ordered.1 (by rw [open_]; rfl)) rest

section Primitives

variable {file next : File contents}

theorem keeps_of_write (transactions : next.transactions = file.transactions.modifyHead change)
    (marks : ∀ transaction, (change transaction).mark = transaction.mark)
    (generations : next.generations = file.generations)
    (sizes : ∀ table, table.hasIds = true → next.size table = file.size table)
    (grows : ∀ table, file.size table ≤ next.size table) (interned : next.interned = file.interned)
    (errors : next.errors = file.errors) (notes : next.notes = file.notes)
    (undone : ∀ top, (∀ table, top.sizes table ≤ file.size table) →
      file.transactions.head? = some top →
      (change top).undo next.graph = top.undo file.graph) :
    file.Keeps next := by
  refine ⟨?_, grows, ?_, unwound_of_undo transactions undone, ?_, ?_, ?_⟩
  · rw [transactions]
    exact map_mark_modifyHead marks _
  · intro table named
    rw [generations, sizes table named]
    exact .refl _ _
  · rw [interned]
    exact .refl _
  · rw [errors]
    exact .refl _
  · rw [notes]
    exact .refl _

theorem keeps_of_unnoted_write (transactions : next.transactions = file.transactions)
    (generations : next.generations = file.generations)
    (sizes : ∀ table, table.hasIds = true → next.size table = file.size table)
    (grows : ∀ table, file.size table ≤ next.size table)
    (interned : next.interned = file.interned)
    (errors : next.errors = file.errors) (notes : next.notes = file.notes)
    (undone : ∀ top, (∀ table, top.sizes table ≤ file.size table) →
      file.transactions.head? = some top → top.undo next.graph = top.undo file.graph) :
    file.Keeps next := by
  apply keeps_of_write _ (fun _ => rfl) generations sizes grows interned errors notes undone
  rw [transactions]
  exact (congrFun List.modifyHead_id _).symm

variable {table : Table}

theorem size_setRows_self (rows : List (Record contents table)) :
    (file.setRows table rows).size table = rows.length := by
  rw [File.size, File.setRows]
  exact congrArg List.length (setRows_rows_self rows)

theorem size_setRows_of_ne {other : Table} (different : other ≠ table)
    (rows : List (Record contents table)) :
    (file.setRows table rows).size other = file.size other := by
  rw [File.size, File.setRows]
  exact congrArg List.length (setRows_rows_of_ne different rows)

theorem size_setRows {rows : List (Record contents table)} (length : rows.length = file.size table)
    (other : Table) :
    (file.setRows table rows).size other = file.size other := by
  by_cases same : other = table
  · subst same
    rw [size_setRows_self, length]
  · exact size_setRows_of_ne same rows

theorem length_modify (slot : ℕ) (change : Record contents table → Record contents table) :
    ((file.graph.rows table).modify slot change).length = file.size table := by
  rw [List.length_modify, File.size]

theorem mutateAt_keeps (file : File contents) (table : Table) (slot : ℕ)
    (change : Record contents table → Record contents table) :
    file.Keeps (file.mutateAt table slot change) := by
  have sizes (other : Table) : (file.mutateAt table slot change).size other = file.size other :=
    size_setRows (length_modify slot change) other
  refine keeps_of_write rfl (fun _ => rfl) rfl (fun other _ => sizes other)
    (fun other => le_of_eq (sizes other).symm) rfl rfl rfl ?_
  exact fun top _ _ => undo_mutate slot change

theorem mutate_keeps (file : File contents) (table : Table) (id : Id table)
    (change : Record contents table → Record contents table) :
    file.Keeps (file.mutate table id change) := by
  rw [File.mutate]
  split
  · exact mutateAt_keeps file table id.index.toNat change
  · exact .refl file

/-- A write that is not noted, to a record that was copied or is newer. -/
theorem setRows_modify_keeps {slot : ℕ} {change : Record contents table → Record contents table}
    (covered : ∀ top, file.transactions.head? = some top → slot < top.sizes table →
      isSaved (top.saved table) slot = true) :
    file.Keeps (file.setRows table ((file.graph.rows table).modify slot change)) := by
  have sizes (other : Table) :
      (file.setRows table ((file.graph.rows table).modify slot change)).size other =
        file.size other :=
    size_setRows (length_modify slot change) other
  refine keeps_of_unnoted_write rfl rfl (fun other _ => sizes other)
    (fun other => le_of_eq (sizes other).symm) rfl rfl rfl ?_
  exact fun top _ innermost => undo_modify_of_saved (covered top innermost) change

theorem setRows_append_keeps (file : File contents) {table : Table}
    (unnamed : table.hasIds = false) (more : List (Record contents table)) :
    file.Keeps (file.setRows table (file.graph.rows table ++ more)) := by
  refine keeps_of_unnoted_write rfl rfl ?_ ?_ rfl rfl rfl ?_
  · intro other named
    apply size_setRows_of_ne
    intro same
    rw [same, unnamed] at named
    exact Bool.false_ne_true named
  · intro other
    by_cases same : other = table
    · subst same
      rw [size_setRows_self, List.length_append]
      exact Nat.le_add_right _ _
    · rw [size_setRows_of_ne same]
  · exact fun top below _ => undo_append (below table) more

theorem addRecord_keeps (file : File contents) (table : Table)
    (record : Record contents table) : file.Keeps (file.addRecord table record).2 := by
  have sizeHere : (file.addRecord table record).2.size table = file.size table + 1 := by
    have rows : (file.addRecord table record).2.size table =
        (file.graph.rows table ++ [record]).length := size_setRows_self _
    rw [rows, List.length_append]
    rfl
  have sizeElsewhere (other : Table) (different : other ≠ table) :
      (file.addRecord table record).2.size other = file.size other :=
    size_setRows_of_ne different _
  refine ⟨rfl, ?_, ?_, ?_, .refl _, .refl _, .refl _⟩
  · intro other
    by_cases same : other = table
    · subst same
      rw [sizeHere]
      exact Nat.le_succ _
    · rw [sizeElsewhere other same]
  · intro other _
    by_cases same : other = table
    · subst same
      have counters : (file.addRecord other record).2.generations other =
          Generations.use (file.generations other) (UInt32.ofNat (file.size other)).toNat :=
        update_self ..
      rw [counters, sizeHere]
      exact Generations.uses_next _ _
    · have counters : (file.addRecord table record).2.generations other =
          file.generations other := update_of_ne same ..
      rw [counters, sizeElsewhere other same]
      exact .refl _ _
  · apply @unwound_of_undo contents file _ id
    · exact (congrFun List.modifyHead_id _).symm
    · exact fun top below _ => undo_append (below table) [record]

theorem assignFact_keeps (file : File contents) (map : FactMap) (key : UInt64)
    (fact : Fact contents map) : file.Keeps (file.assignFact map key fact) := by
  refine keeps_of_write rfl (fun _ => rfl) rfl (fun _ _ => rfl) (fun _ => le_refl _) rfl rfl rfl ?_
  exact fun top _ _ => undo_setFact map key fact

theorem setFact_keeps {map : FactMap} {key : UInt64}
    (copied : ∀ top, file.transactions.head? = some top →
      isSaved (top.savedFacts map) key = true) (fact : Fact contents map) :
    file.Keeps { file with graph := file.graph.setFact map key fact } := by
  refine keeps_of_unnoted_write rfl rfl (fun _ _ => rfl) (fun _ => le_refl _) rfl rfl rfl ?_
  exact fun top _ innermost => undo_setFact_of_saved (copied top innermost) fact

theorem setSettings_keeps (file : File contents) (settings : Settings) :
    file.Keeps (file.setSettings settings) :=
  keeps_of_unnoted_write rfl rfl (fun _ _ => rfl) (fun _ => le_refl _) rfl rfl rfl
    fun _ _ _ => undo_setSettings settings

theorem internName_keeps (file : File contents) (spelling : String) :
    file.Keeps (file.internName spelling).2 := by
  rw [File.internName]
  split
  · exact .refl file
  case h_2 fresh =>
    simp only
    apply (addRecord_keeps file .names spelling).trans
    refine keeps_of_write rfl (fun _ => rfl) rfl (fun _ _ => rfl) (fun _ => le_refl _)
      rfl rfl rfl ?_
    intro top _ _
    have unbound : (file.addRecord .names spelling).2.graph.nameIndex spelling = none := fresh
    exact undo_insertName unbound _

theorem interned_keeps (file : File contents) {interned : Cir.File}
    (keeps : file.interned.Keeps interned) : file.Keeps { file with interned := interned } :=
  ⟨rfl, fun _ => le_refl _, fun _ _ => .refl _ _, fun _ => rfl, keeps, .refl _, .refl _⟩

theorem builtinType_keeps (environment : Environment) (file : File contents)
    (kind : BuiltinTypeKind) : file.Keeps (file.builtinType environment kind).2 := by
  rw [File.builtinType]
  generalize environment.canonicalBuiltinTypeKind kind = kind
  simp only
  split
  · exact .refl file
  case h_2 fresh =>
    have names := internName_keeps file (environment.builtinTypeKindName kind)
    have unbound : (file.internName
        (environment.builtinTypeKindName kind)).2.graph.builtinTypes kind = none := by
      rw [File.internName]
      split
      · exact fresh
      · exact fresh
    revert names unbound
    generalize file.internName (environment.builtinTypeKindName kind) = name
    intro names unbound
    apply names.trans
    apply (interned_keeps name.2 (internType_keeps environment.stringHash _ _)).trans
    refine keeps_of_write rfl (fun _ => rfl) rfl (fun _ _ => rfl) (fun _ => le_refl _)
      rfl rfl rfl ?_
    exact fun top _ _ => undo_insertBuiltinType unbound _

/-- A change of a context is noted with what takes it back. -/
theorem changeDeclContext_keeps {id : DeclContextId} {context : DeclContext}
    (valid : file.valid .declContexts id = true)
    (stored : (file.graph.rows .declContexts)[id.index.toNat]? = some context)
    {change : DeclContextChange} {apply : DeclContext → DeclContext}
    (back : file.journalsDeclContext id = true → undoChange (apply context) change = context) :
    file.Keeps (file.changeDeclContext id change apply) := by
  have length : ((file.graph.rows .declContexts).modify id.index.toNat apply).length =
      file.size .declContexts := List.length_modify ..
  have sizes (other : Table) :
      (file.changeDeclContext id change apply).size other = file.size other := by
    rw [File.changeDeclContext, File.journalDeclContext]
    split
    · exact size_setRows length other
    · exact size_setRows length other
  rw [File.changeDeclContext, File.journalDeclContext] at *
  cases journals : file.journalsDeclContext id with
  | true =>
    simp only [journals, if_true] at sizes ⊢
    refine keeps_of_write rfl (fun _ => rfl) rfl (fun other _ => sizes other)
      (fun other => le_of_eq (sizes other).symm) rfl rfl rfl ?_
    intro top _ innermost
    refine undo_change ?_ stored (back journals)
    rw [File.journalsDeclContext] at journals
    cases transactions : file.transactions with
    | nil => simp [transactions] at innermost
    | cons first rest =>
      rw [transactions, List.head?_cons, Option.some.injEq] at innermost
      simp only [transactions, innermost, and_eq_true, not_eq_true'] at journals
      exact journals.2
  | false =>
    simp only [journals, false_eq_true, if_false] at sizes ⊢
    apply setRows_modify_keeps
    intro top innermost older
    cases transactions : file.transactions with
    | nil => simp [transactions] at innermost
    | cons first rest =>
      rw [transactions, List.head?_cons, Option.some.injEq] at innermost
      simpa [File.journalsDeclContext, transactions, innermost, valid, older] using journals

end Primitives

end Aburi.Cir.Full
