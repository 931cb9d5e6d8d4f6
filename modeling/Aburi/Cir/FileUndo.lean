import Aburi.Cir.FileCalls

/-!
# What a rollback makes of the tables

A record of a restored table is the copy that was taken of it, or the record that
is there, with the noted changes of a declaration context taken back.  From this
follow the rules for single writes and for the merging of a committed transaction.
-/

namespace Aburi.Cir.Full

open Aburi.Lib Function List

variable {contents : Contents}

/-- The changes of one context are taken back. -/
def undoContext (deltas : List DeclContextDelta) (slot : ℕ) (context : DeclContext) :
    DeclContext :=
  deltas.foldr
    (fun delta context =>
      if delta.context = slot then undoChange context delta.change else context) context

def undoRecord (deltas : List DeclContextDelta) :
    (table : Table) → ℕ → Record contents table → Record contents table
  | .declContexts, slot, context => undoContext deltas slot context
  | _, _, record => record

theorem getElem?_undoDeltas (deltas : List DeclContextDelta) (contexts : List DeclContext)
    (slot : ℕ) :
    (undoDeltas deltas contexts)[slot]? = contexts[slot]?.map (undoContext deltas slot) := by
  induction deltas with
  | nil =>
    have unchanged : undoDeltas [] contexts = contexts := rfl
    rw [unchanged]
    cases contexts[slot]? <;> rfl
  | cons delta rest ih =>
    have step : undoDeltas (delta :: rest) contexts =
        (undoDeltas rest contexts).modify delta.context
          fun context => undoChange context delta.change := rfl
    rw [step, getElem?_modify, ih]
    by_cases same : delta.context = slot
    · subst same
      cases contexts[delta.context]? <;> simp [undoContext]
    · cases contexts[slot]? <;> simp [undoContext, same]

theorem getElem?_undoTableDeltas (deltas : List DeclContextDelta) (table : Table)
    (rows : List (Record contents table)) (slot : ℕ) :
    (undoTableDeltas deltas table rows)[slot]? =
      rows[slot]?.map (undoRecord deltas table slot) := by
  cases table with
  | declContexts => exact getElem?_undoDeltas deltas rows slot
  | _ =>
    have unchanged : undoTableDeltas deltas _ rows = rows := rfl
    rw [unchanged]
    cases rows[slot]? <;> rfl

theorem getElem?_undo (transaction : Transaction contents) (graph : Graph contents)
    (table : Table) (slot : ℕ) :
    ((transaction.undo graph).rows table)[slot]? =
      if slot < transaction.sizes table then
        (graph.rows table)[slot]?.map fun record =>
          undoRecord transaction.declContextDeltas table slot
            ((savedAt (transaction.saved table) slot).getD record)
      else none := by
  simp only [Transaction.undo, getElem?_take, getElem?_undoTableDeltas,
    getElem?_restoreRows, Option.map_map]
  rfl

theorem undoContext_append (first second : List DeclContextDelta) (slot : ℕ)
    (context : DeclContext) :
    undoContext (first ++ second) slot context =
      undoContext first slot (undoContext second slot context) := by
  simp [undoContext]

variable {slot : ℕ}

theorem undoContext_of_unmentioned {deltas : List DeclContextDelta}
    (unmentioned : ∀ delta ∈ deltas, delta.context ≠ slot) (context : DeclContext) :
    undoContext deltas slot context = context := by
  induction deltas with
  | nil => rfl
  | cons delta rest ih =>
    have other : delta.context ≠ slot := unmentioned delta (mem_cons_self)
    have earlier : undoContext rest slot context = context :=
      ih fun delta member =>
        unmentioned delta (mem_cons_of_mem _ member)
    calc
      undoContext (delta :: rest) slot context =
          if delta.context = slot then undoChange (undoContext rest slot context) delta.change
          else undoContext rest slot context := rfl
      _ = context := by rw [if_neg other, earlier]

/-- Only the changes of the context itself count. -/
theorem undoContext_filter {deltas : List DeclContextDelta} {keep : DeclContextDelta → Bool}
    (kept : ∀ delta ∈ deltas, delta.context = slot → keep delta = true) (context : DeclContext) :
    undoContext (deltas.filter keep) slot context = undoContext deltas slot context := by
  induction deltas with
  | nil => rfl
  | cons delta rest ih =>
    have earlier := ih fun delta member =>
      kept delta (mem_cons_of_mem _ member)
    have here := kept delta mem_cons_self
    have step : undoContext (delta :: rest) slot context =
        if delta.context = slot then undoChange (undoContext rest slot context) delta.change
        else undoContext rest slot context := rfl
    rw [filter_cons, step]
    by_cases same : delta.context = slot
    · rw [if_pos (here same), if_pos same, ← earlier]
      exact if_pos same
    · rw [if_neg same, ← earlier]
      split
      · exact if_neg same
      · rfl

section Writes

variable {transaction : Transaction contents} {graph : Graph contents} {table : Table}

theorem setRows_rows_self (rows : List (Record contents table)) :
    (graph.setRows table rows).rows table = rows :=
  update_self ..

theorem setRows_rows_of_ne {other : Table} (different : other ≠ table)
    (rows : List (Record contents table)) :
    (graph.setRows table rows).rows other = graph.rows other :=
  update_of_ne different ..

/-- Two rollbacks agree if they agree on one table and nothing else was touched. -/
theorem undo_setRows_eq {next : Transaction contents} {rows : List (Record contents table)}
    (sizes : next.sizes = transaction.sizes)
    (settings : next.settings = transaction.settings)
    (facts : next.savedFacts = transaction.savedFacts)
    (names : next.insertedNameKeys = transaction.insertedNameKeys)
    (builtins : next.insertedBuiltinTypeKeys = transaction.insertedBuiltinTypeKeys)
    (others : ∀ other, other ≠ table → next.saved other = transaction.saved other)
    (deltas : ∀ other, other ≠ table → ∀ slot (record : Record contents other),
      undoRecord next.declContextDeltas other slot record =
        undoRecord transaction.declContextDeltas other slot record)
    (here : ∀ slot, slot < transaction.sizes table →
      (rows[slot]?.map fun record => undoRecord next.declContextDeltas table slot
          ((savedAt (next.saved table) slot).getD record)) =
        (graph.rows table)[slot]?.map fun record =>
          undoRecord transaction.declContextDeltas table slot
            ((savedAt (transaction.saved table) slot).getD record)) :
    next.undo (graph.setRows table rows) = transaction.undo graph := by
  have sameRows : (next.undo (graph.setRows table rows)).rows = (transaction.undo graph).rows := by
    funext other
    apply ext_getElem?
    intro slot
    rw [getElem?_undo, getElem?_undo, sizes]
    by_cases inside : slot < transaction.sizes other
    · rw [if_pos inside, if_pos inside]
      by_cases same : other = table
      · subst same
        rw [setRows_rows_self]
        exact here slot inside
      · rw [setRows_rows_of_ne same, others other same]
        simp only [deltas other same]
    · rw [if_neg inside, if_neg inside]
  simp only [Transaction.undo, Graph.mk.injEq] at sameRows ⊢
  refine ⟨sameRows, ?_, ?_, ?_, settings⟩
  · rw [facts]
    rfl
  · rw [names]
    rfl
  · rw [builtins]
    rfl

theorem undo_append (below : transaction.sizes table ≤ (graph.rows table).length)
    (more : List (Record contents table)) :
    transaction.undo (graph.setRows table (graph.rows table ++ more)) = transaction.undo graph := by
  apply undo_setRows_eq rfl rfl rfl rfl rfl (fun _ _ => rfl) (fun _ _ _ _ => rfl)
  intro slot inside
  rw [getElem?_append_left (lt_of_lt_of_le inside below)]

/-- A record that was copied, or that came later, may be written. -/
theorem undo_modify_of_saved
    (covered : slot < transaction.sizes table → isSaved (transaction.saved table) slot = true)
    (change : Record contents table → Record contents table) :
    transaction.undo (graph.setRows table ((graph.rows table).modify slot change)) =
      transaction.undo graph := by
  apply undo_setRows_eq rfl rfl rfl rfl rfl (fun _ _ => rfl) (fun _ _ _ _ => rfl)
  intro other inside
  rw [getElem?_modify]
  by_cases same : slot = other
  · subst same
    obtain ⟨copy, found⟩ := Option.isSome_iff_exists.mp (covered inside)
    cases (graph.rows table)[slot]? <;> simp [found]
  · cases (graph.rows table)[other]? <;> simp [same]

theorem undo_mutate (slot : ℕ) (change : Record contents table → Record contents table) :
    Transaction.undo
        { transaction with
          saved := update transaction.saved table
            (saveRow (transaction.sizes table) (graph.rows table) slot
              (transaction.saved table)) }
        (graph.setRows table ((graph.rows table).modify slot change)) =
      transaction.undo graph := by
  refine @undo_setRows_eq contents transaction graph table _ _ rfl rfl rfl rfl rfl ?_ ?_ ?_
  · intro other different
    exact update_of_ne different ..
  · exact fun _ _ _ _ => rfl
  · intro other inside
    simp only [update_self, getElem?_modify]
    by_cases same : slot = other
    · subst same
      cases stored : (graph.rows table)[slot]? with
      | none => rfl
      | some record => simp [savedAt_saveRow stored inside]
    · rw [savedAt_saveRow_of_ne same]
      cases (graph.rows table)[other]? <;> simp [same]

theorem undo_change {context : DeclContext}
    (unsaved : isSaved (transaction.saved .declContexts) slot = false)
    (stored : (graph.rows .declContexts)[slot]? = some context) {change : DeclContextChange}
    {apply : DeclContext → DeclContext} (back : undoChange (apply context) change = context) :
    Transaction.undo
        { transaction with
          declContextDeltas :=
            transaction.declContextDeltas ++ [{ context := slot, change := change }] }
        (graph.setRows .declContexts ((graph.rows .declContexts).modify slot apply)) =
      transaction.undo graph := by
  refine @undo_setRows_eq contents transaction graph .declContexts _ _ rfl rfl rfl rfl rfl ?_ ?_ ?_
  · exact fun _ _ => rfl
  · intro other different place record
    cases other <;> first | rfl | exact absurd rfl different
  · intro other inside
    rw [getElem?_modify]
    by_cases same : slot = other
    · subst same
      have single : undoContext [{ context := slot, change := change }] slot (apply context) =
          context := by
        rw [← back]
        simp [undoContext, back]
      simp only [stored, if_true, Option.map_eq_map, Option.map_some,
        savedAt_of_not_isSaved unsaved, Option.getD_none, undoRecord, undoContext_append, single]
    · have single (record : DeclContext) :
          undoContext [{ context := slot, change := change }] other record = record :=
        undoContext_of_unmentioned (by simpa using same) record
      simp only [if_neg same, Option.map_eq_map, undoRecord, undoContext_append, single]
      cases (graph.rows .declContexts)[other]? <;> rfl

end Writes

section Maps

variable {transaction : Transaction contents} {graph : Graph contents}

theorem undo_setFact (map : FactMap) (key : UInt64) (fact : Fact contents map) :
    Transaction.undo
        { transaction with
          savedFacts := update transaction.savedFacts map
            (saveKey (graph.facts map) key (transaction.savedFacts map)) }
        (graph.setFact map key fact) =
      transaction.undo graph := by
  simp only [Transaction.undo, Graph.setFact, Graph.mk.injEq, true_and, and_true]
  funext other
  by_cases same : other = map
  · subst same
    rw [update_self, update_self, restoreKeys_saveKey]
  · rw [update_of_ne same, update_of_ne same]

theorem undo_setFact_of_saved {map : FactMap} {key : UInt64}
    (copied : isSaved (transaction.savedFacts map) key = true) (fact : Fact contents map) :
    transaction.undo (graph.setFact map key fact) = transaction.undo graph := by
  simp only [Transaction.undo, Graph.setFact, Graph.mk.injEq, true_and, and_true]
  funext other
  by_cases same : other = map
  · subst same
    rw [update_self, restoreKeys_update_of_saved copied]
  · rw [update_of_ne same]

theorem undo_setSettings (settings : Settings) :
    transaction.undo { graph with settings := settings } = transaction.undo graph :=
  rfl

theorem undo_insertName {spelling : String} (fresh : graph.nameIndex spelling = none)
    (id : Option NameId) :
    Transaction.undo
        { transaction with
          insertedNameKeys := transaction.insertedNameKeys ++ [spelling] }
        { graph with nameIndex := update graph.nameIndex spelling id } =
      transaction.undo graph := by
  simp only [Transaction.undo, Graph.mk.injEq, true_and, and_true]
  exact eraseKeys_insert fresh id _

theorem undo_insertBuiltinType {kind : BuiltinTypeKind}
    (fresh : graph.builtinTypes kind = none) (id : Option TypeId) :
    Transaction.undo
        { transaction with
          insertedBuiltinTypeKeys := transaction.insertedBuiltinTypeKeys ++ [kind] }
        { graph with builtinTypes := update graph.builtinTypes kind id } =
      transaction.undo graph := by
  simp only [Transaction.undo, Graph.mk.injEq, true_and, and_true]
  exact eraseKeys_insert fresh id _

end Maps

section Merge

variable {parent child : Transaction contents}

/-- Of a context that the outer transaction neither made nor copied, the inner one
did not note a change and take a copy both. -/
def Transaction.Mergeable (parent child : Transaction contents) : Prop :=
  ∀ delta ∈ child.declContextDeltas, delta.context < parent.sizes .declContexts →
    isSaved (parent.saved .declContexts) delta.context = false →
    isSaved (child.saved .declContexts) delta.context = false

theorem savedAt_mergeCommitted {table : Table} (inside : slot < parent.sizes table) :
    savedAt ((parent.mergeCommitted child).saved table) slot =
      (savedAt (parent.saved table) slot).or (savedAt (child.saved table) slot) := by
  have wanted : decide (slot < parent.sizes table) = true := by simpa using inside
  exact @savedAt_mergeSaved _ _ _ (fun slot => decide (slot < parent.sizes table)) slot wanted _ _

/-- The changes that the inner transaction noted stay noted, unless there is a copy. -/
theorem undoContext_mergedDeltas (inside : slot < parent.sizes .declContexts)
    (context : DeclContext) :
    undoContext (parent.mergeCommitted child).declContextDeltas slot context =
      undoContext parent.declContextDeltas slot
        (if isSaved ((parent.mergeCommitted child).saved .declContexts) slot then context
        else undoContext child.declContextDeltas slot context) := by
  have deltas : (parent.mergeCommitted child).declContextDeltas =
      parent.declContextDeltas ++ child.declContextDeltas.filter fun delta =>
        decide (delta.context < parent.sizes .declContexts) &&
          !isSaved ((parent.mergeCommitted child).saved .declContexts) delta.context := rfl
  rw [deltas, undoContext_append]
  congr 1
  cases copied : isSaved ((parent.mergeCommitted child).saved .declContexts) slot with
  | true =>
    apply undoContext_of_unmentioned
    intro delta member same
    rw [mem_filter, same, copied] at member
    simp at member
  | false =>
    apply undoContext_filter
    intro delta _ same
    simp [same, copied, inside]

theorem undoContext_mergeCommitted (mergeable : parent.Mergeable child)
    (inside : slot < parent.sizes .declContexts) (context : DeclContext) :
    undoContext (parent.mergeCommitted child).declContextDeltas slot
        ((savedAt ((parent.mergeCommitted child).saved .declContexts) slot).getD context) =
      undoContext parent.declContextDeltas slot
        ((savedAt (parent.saved .declContexts) slot).getD
          (undoContext child.declContextDeltas slot
            ((savedAt (child.saved .declContexts) slot).getD context))) := by
  rw [undoContext_mergedDeltas inside, isSaved, savedAt_mergeCommitted inside]
  cases outer : savedAt (parent.saved .declContexts) slot with
  | some copy => rfl
  | none =>
    cases inner : savedAt (child.saved .declContexts) slot with
    | none => rfl
    | some copy =>
      have quiet : undoContext child.declContextDeltas slot copy = copy := by
        apply undoContext_of_unmentioned
        intro delta member same
        have unsaved := mergeable delta member (same ▸ inside) (by simp [isSaved, same, outer])
        simp [isSaved, same, inner] at unsaved
      simp [quiet]

theorem undoRecord_mergeCommitted (mergeable : parent.Mergeable child) {table : Table}
    (inside : slot < parent.sizes table) (record : Record contents table) :
    undoRecord (parent.mergeCommitted child).declContextDeltas table slot
        ((savedAt ((parent.mergeCommitted child).saved table) slot).getD record) =
      undoRecord parent.declContextDeltas table slot
        ((savedAt (parent.saved table) slot).getD
          (undoRecord child.declContextDeltas table slot
            ((savedAt (child.saved table) slot).getD record))) := by
  cases table with
  | declContexts => exact undoContext_mergeCommitted mergeable inside record
  | _ =>
    rw [savedAt_mergeCommitted inside]
    simp only [undoRecord]
    cases savedAt (parent.saved _) slot <;> rfl

/-- Rolling back after a commit is rolling back twice. -/
theorem undo_mergeCommitted (mergeable : parent.Mergeable child)
    (later : ∀ table, parent.sizes table ≤ child.sizes table) (graph : Graph contents) :
    (parent.mergeCommitted child).undo graph = parent.undo (child.undo graph) := by
  have sameRows : ((parent.mergeCommitted child).undo graph).rows =
      (parent.undo (child.undo graph)).rows := by
    funext table
    apply ext_getElem?
    intro slot
    have sizes : (parent.mergeCommitted child).sizes = parent.sizes := rfl
    rw [getElem?_undo, getElem?_undo, sizes]
    by_cases inside : slot < parent.sizes table
    · rw [if_pos inside, if_pos inside, getElem?_undo,
        if_pos (lt_of_lt_of_le inside (later table)), Option.map_map]
      congr 1
      funext record
      exact undoRecord_mergeCommitted mergeable inside record
    · rw [if_neg inside, if_neg inside]
  simp only [Transaction.undo, Graph.mk.injEq] at sameRows ⊢
  refine ⟨sameRows, ?_, ?_, ?_, rfl⟩
  · funext map
    exact restoreKeys_mergeSaved _ _ _
  · exact eraseKeys_append _ _ _
  · exact eraseKeys_append _ _ _

end Merge

end Aburi.Cir.Full
