import Aburi.Lib.FloorTable

/-!
# Pragma states by location

The tokenizer records the pack alignment and the diagnostic state in force at the
location of each token it emits; the parser asks for them by location.  A header
that is included again starts at the same location as before.
-/

namespace Aburi.Source

open Aburi.Lib List Nat

structure PragmaStateEntry where
  offset : ℕ
  packAlignment : ℕ
  diagStateId : ℕ
  deriving DecidableEq

/-- Offset zero is the invalid location. -/
structure SourceManager (D : Type) where
  diagnosticStates : List D
  pragmaStateTable : List PragmaStateEntry
  pragmaStateSorted : Bool

variable {D : Type} [Inhabited D]

def SourceManager.getDiagnosticStateById (sm : SourceManager D) (id : ℕ) : D :=
  sm.diagnosticStates.getD id (sm.diagnosticStates.getD 0 default)

/-- An entry at the place of the last one, none behind an equal neighbour, or one
more. -/
def recordEntry (table : List PragmaStateEntry) (entry : PragmaStateEntry) :
    Option (List PragmaStateEntry) :=
  match table.getLast? with
  | none => some (table ++ [entry])
  | some last =>
    if last.offset = entry.offset then some (table.dropLast ++ [entry])
    else if entry.offset = last.offset + 1 ∧ last.packAlignment = entry.packAlignment ∧
        last.diagStateId = entry.diagStateId then
      none
    else some (table ++ [entry])

def SourceManager.recordPragmaState (sm : SourceManager D) (loc pack diagStateId : ℕ) :
    SourceManager D :=
  if loc = 0 then sm
  else
    match recordEntry sm.pragmaStateTable ⟨loc, pack, diagStateId⟩ with
    | none => sm
    | some table => { sm with pragmaStateTable := table, pragmaStateSorted := false }

def collapseEntry (collapsed : List PragmaStateEntry) (entry : PragmaStateEntry) :
    List PragmaStateEntry :=
  match collapsed.getLast? with
  | none => [entry]
  | some last =>
    if last.offset = entry.offset then collapsed.dropLast ++ [entry]
    else if last.packAlignment = entry.packAlignment ∧ last.diagStateId = entry.diagStateId then
      collapsed
    else collapsed ++ [entry]

def SourceManager.ensurePragmaStateSorted (sm : SourceManager D) : SourceManager D :=
  if sm.pragmaStateSorted then sm
  else
    { sm with
      pragmaStateTable :=
        (stableSort PragmaStateEntry.offset sm.pragmaStateTable).foldl collapseEntry []
      pragmaStateSorted := true }

/-- `std::upper_bound` and one step back, on a sorted table. -/
def findPragmaState (table : List PragmaStateEntry) (offset : ℕ) : Option PragmaStateEntry :=
  lastAtOrBelow PragmaStateEntry.offset table offset

def SourceManager.getPackAlignment (sm : SourceManager D) (loc : ℕ) : ℕ :=
  if loc = 0 then 0
  else
    match findPragmaState sm.ensurePragmaStateSorted.pragmaStateTable loc with
    | none => 0
    | some entry => entry.packAlignment

def SourceManager.getDiagnosticState (sm : SourceManager D) (loc : ℕ) : D :=
  if loc = 0 then sm.getDiagnosticStateById 0
  else
    match findPragmaState sm.ensurePragmaStateSorted.pragmaStateTable loc with
    | none => sm.getDiagnosticStateById 0
    | some entry => sm.getDiagnosticStateById entry.diagStateId

inductive TokenKind where
  | stringLiteral | eof | other
  deriving DecidableEq

/-- A token, with the pack alignment and diagnostic state that were in force when
it was emitted. -/
structure EmittedToken (D : Type) where
  kind : TokenKind
  loc : ℕ
  inForce : ℕ × D

structure PreProcess (D : Type) where
  sm : SourceManager D
  currentPackAlignment : ℕ
  packStack : List ℕ
  currentDiagStateId : ℕ
  diagStateStack : List ℕ
  tokens : List (EmittedToken D)

/-- What happens while a translation unit is tokenized: the pragmas that change a
state, a token that `nextToken` returns, and a question to the source manager. -/
inductive Event (D : Type) where
  | packReset
  | packPush (value : Option ℕ)
  | packPop
  | packSet (value : ℕ)
  | diagnosticPush
  | diagnosticPop
  | diagnosticSet (change : D → D)
  | token (kind : TokenKind) (loc : ℕ)
  | query

def PreProcess.initial : PreProcess D :=
  ⟨⟨[default], [], true⟩, 0, [], 0, [], []⟩

def PreProcess.inForce (pp : PreProcess D) : ℕ × D :=
  (pp.currentPackAlignment, pp.sm.getDiagnosticStateById pp.currentDiagStateId)

/-- A string literal behind a string literal is concatenated to it. -/
def PreProcess.concatenates (pp : PreProcess D) (kind : TokenKind) : Bool :=
  kind = .stringLiteral ∧ (pp.tokens.getLast?.map (·.kind)) = some .stringLiteral

def PreProcess.emit (pp : PreProcess D) (kind : TokenKind) (loc : ℕ) : PreProcess D :=
  if pp.concatenates kind then pp
  else
    { pp with
      sm := if kind = .eof then pp.sm
        else pp.sm.recordPragmaState loc pp.currentPackAlignment pp.currentDiagStateId
      tokens := pp.tokens ++ [⟨kind, loc, pp.inForce⟩] }

def PreProcess.step (pp : PreProcess D) : Event D → PreProcess D
  | .packReset => { pp with currentPackAlignment := 0 }
  | .packPush value =>
    { pp with
      packStack := pp.currentPackAlignment :: pp.packStack
      currentPackAlignment := value.getD pp.currentPackAlignment }
  | .packPop =>
    match pp.packStack with
    | [] => pp
    | top :: rest => { pp with currentPackAlignment := top, packStack := rest }
  | .packSet value => { pp with currentPackAlignment := value }
  | .diagnosticPush => { pp with diagStateStack := pp.currentDiagStateId :: pp.diagStateStack }
  | .diagnosticPop =>
    match pp.diagStateStack with
    | [] => pp
    | top :: rest => { pp with currentDiagStateId := top, diagStateStack := rest }
  | .diagnosticSet change =>
    { pp with
      sm := { pp.sm with
        diagnosticStates := pp.sm.diagnosticStates ++
          [change (pp.sm.getDiagnosticStateById pp.currentDiagStateId)] }
      currentDiagStateId := pp.sm.diagnosticStates.length }
  | .token kind loc => pp.emit kind loc
  | .query => { pp with sm := pp.sm.ensurePragmaStateSorted }

def PreProcess.run (events : List (Event D)) : PreProcess D := events.foldl .step .initial

/-- The tokens of an included file: a new token source starts at the file's
offset every time. -/
def includeFile (fileOffset : ℕ) (indices : List ℕ) : List (Event D) :=
  indices.map fun index => .token .other (fileOffset + index)

def SourceManager.answer (sm : SourceManager D) (loc : ℕ) : ℕ × D :=
  (sm.getPackAlignment loc, sm.getDiagnosticState loc)

/-- Every token is answered with the states in force when it was emitted. -/
def PreProcess.Answered (pp : PreProcess D) : Prop :=
  ∀ token ∈ pp.tokens, pp.sm.answer token.loc = token.inForce

/-- What a step must not bring: a recorded token takes over the locations up to
the next entry of the table; one that is not recorded is answered like the tokens
behind the last entry in front of it. -/
def PreProcess.StepOk (pp : PreProcess D) : Event D → Prop
  | .token kind loc =>
    pp.concatenates kind = true ∨
      if kind = .eof ∨ loc = 0 then
        (∀ token ∈ pp.tokens, token.loc ≤ loc →
          (∀ entry ∈ pp.sm.pragmaStateTable, entry.offset ≤ loc → entry.offset ≤ token.loc) →
          token.inForce = pp.inForce) ∧
        ((∀ entry ∈ pp.sm.pragmaStateTable, loc < entry.offset) →
          pp.inForce = (0, pp.sm.getDiagnosticStateById 0))
      else
        ∀ token ∈ pp.tokens, loc ≤ token.loc →
          (∀ entry ∈ pp.sm.pragmaStateTable, loc < entry.offset → token.loc < entry.offset) →
          token.inForce = pp.inForce
  | _ => True

section Tables

variable {table : List PragmaStateEntry} {entry : PragmaStateEntry}

theorem collapse_sublist : (table.foldl collapseEntry []).Sublist table := by
  induction table using reverseRecOn with
  | nil => exact List.Sublist.refl _
  | append_singleton table entry induction =>
    rw [foldl_append, foldl_cons, foldl_nil, collapseEntry]
    split
    · exact sublist_append_right _ _
    · split
      · exact ((dropLast_sublist _).trans induction).append (List.Sublist.refl _)
      · split
        · exact induction.trans (sublist_append_left _ _)
        · exact induction.append (List.Sublist.refl _)

/-- What an answer reads of an entry. -/
def PragmaStateEntry.state (entry : PragmaStateEntry) : ℕ × ℕ :=
  (entry.packAlignment, entry.diagStateId)

theorem collapse_answers (isSorted : Sorted PragmaStateEntry.offset table) (loc : ℕ) :
    (findPragmaState (table.foldl collapseEntry []) loc).map (·.state) =
      (findPragmaState table loc).map (·.state) := by
  induction table using reverseRecOn with
  | nil => rfl
  | append_singleton table entry induction =>
    obtain ⟨front, -, behind⟩ := pairwise_append.mp isSorted
    have before := induction front
    have last_le : ∀ last, (table.foldl collapseEntry []).getLast? = some last →
        last.offset ≤ entry.offset := fun last isLast =>
      behind last (collapse_sublist.subset (mem_of_getLast? isLast)) entry (mem_singleton_self _)
    rw [foldl_append, foldl_cons, foldl_nil]
    unfold findPragmaState at before ⊢
    rw [lastAtOrBelow_append, collapseEntry]
    split
    case h_1 isNone =>
      rw [getLast?_eq_none_iff.mp isNone] at before
      rw [← nil_append [entry], lastAtOrBelow_append]
      split
      · rfl
      · exact before
    case h_2 last isLast =>
      have atMost := last_le last isLast
      obtain ⟨rest, isRest⟩ := getLast?_eq_some_iff.mp isLast
      rw [isRest] at before ⊢
      rw [lastAtOrBelow_append] at before
      split
      case isTrue same =>
        rw [dropLast_concat, lastAtOrBelow_append]
        split
        · rfl
        · rwa [if_neg (by omega)] at before
      case isFalse =>
        split
        case isTrue equal =>
          rw [lastAtOrBelow_append]
          by_cases below : entry.offset ≤ loc
          · rw [if_pos (by omega), if_pos below]
            exact congrArg some (Prod.ext equal.1 equal.2)
          · rw [if_neg below]
            exact before
        case isFalse =>
          rw [lastAtOrBelow_append]
          split
          · rfl
          · rwa [lastAtOrBelow_append]

/-- The recorded entry answers from its location up to the next entry. -/
theorem recordEntry_find {recorded : List PragmaStateEntry} {loc : ℕ}
    (isRecorded : recordEntry table entry = some recorded) :
    findPragmaState (stableSort PragmaStateEntry.offset recorded) loc =
      if entry.offset ≤ loc ∧ ∀ other ∈ table, entry.offset < other.offset → ¬ other.offset ≤ loc then
        some entry
      else findPragmaState (stableSort PragmaStateEntry.offset table) loc := by
  have pushed : ∀ front : List PragmaStateEntry,
      findPragmaState (stableSort PragmaStateEntry.offset (front ++ [entry])) loc =
        if entry.offset ≤ loc ∧ ∀ other ∈ front, entry.offset < other.offset → ¬ other.offset ≤ loc
        then some entry else findPragmaState (stableSort PragmaStateEntry.offset front) loc := by
    intro front
    rw [findPragmaState, stableSort_append, stableSort_sorted.lastAtOrBelow_insertAfter]
    simp only [mem_stableSort]
    rfl
  rw [recordEntry] at isRecorded
  split at isRecorded
  case h_1 =>
    cases isRecorded
    exact pushed table
  case h_2 last isLast =>
    split at isRecorded
    case isTrue same =>
      cases isRecorded
      obtain ⟨front, rfl⟩ := getLast?_eq_some_iff.mp isLast
      rw [dropLast_concat, pushed front]
      by_cases alone : entry.offset ≤ loc ∧
          ∀ other ∈ front, entry.offset < other.offset → ¬ other.offset ≤ loc
      · rw [if_pos alone, if_pos]
        refine ⟨alone.1, fun other member above => ?_⟩
        rcases mem_append.mp member with inFront | isLast
        · exact alone.2 other inFront above
        · rw [mem_singleton.mp isLast] at above
          omega
      · rw [if_neg alone, if_neg fun every => alone
            ⟨every.1, fun other member => every.2 other (mem_append_left _ member)⟩,
          findPragmaState, findPragmaState, stableSort_append,
          stableSort_sorted.lastAtOrBelow_insertAfter, if_neg]
        simpa only [mem_stableSort, same] using alone
    case isFalse =>
      split at isRecorded
      · cases isRecorded
      · cases isRecorded
        exact pushed table

theorem recordEntry_none (left : recordEntry table entry = none)
    (absent : ∀ other ∈ table, other.offset ≠ entry.offset) :
    (findPragmaState (stableSort PragmaStateEntry.offset table) entry.offset).map (·.state) =
      some entry.state := by
  rw [recordEntry] at left
  split at left
  case h_1 => cases left
  case h_2 last isLast =>
    split at left
    case isTrue => cases left
    case isFalse =>
      split at left
      case isFalse => cases left
      case isTrue neighbour =>
        obtain ⟨next, samePack, sameDiag⟩ := neighbour
        obtain ⟨front, rfl⟩ := getLast?_eq_some_iff.mp isLast
        rw [findPragmaState, stableSort_append, stableSort_sorted.lastAtOrBelow_insertAfter,
          if_pos, Option.map_some]
        · exact congrArg some (Prod.ext samePack sameDiag)
        · refine ⟨by omega, fun other member above inside => ?_⟩
          have different := absent other (mem_append_left _ (mem_stableSort.mp member))
          omega

theorem mem_recordEntry {recorded : List PragmaStateEntry} {other : PragmaStateEntry}
    (isRecorded : recordEntry table entry = some recorded) (member : other ∈ recorded) :
    other = entry ∨ other ∈ table := by
  rw [recordEntry] at isRecorded
  have behind : ∀ front : List PragmaStateEntry, front.Sublist table → other ∈ front ++ [entry] →
      other = entry ∨ other ∈ table := by
    intro front isSub member
    rcases mem_append.mp member with before | last
    · exact .inr (isSub.subset before)
    · exact .inl (mem_singleton.mp last)
  split at isRecorded
  case h_1 =>
    cases isRecorded
    exact behind _ (List.Sublist.refl _) member
  case h_2 =>
    split at isRecorded
    · cases isRecorded
      exact behind _ (dropLast_sublist _) member
    · split at isRecorded
      · cases isRecorded
      · cases isRecorded
        exact behind _ (List.Sublist.refl _) member

end Tables

/-- Identifiers are those of states, a table that counts as sorted is, and its
entries stand at locations of tokens. -/
structure PreProcess.WellFormed (pp : PreProcess D) : Prop where
  current : pp.currentDiagStateId < pp.sm.diagnosticStates.length
  stack : ∀ id ∈ pp.diagStateStack, id < pp.sm.diagnosticStates.length
  entries : ∀ entry ∈ pp.sm.pragmaStateTable, entry.offset ≠ 0 ∧
    entry.diagStateId < pp.sm.diagnosticStates.length ∧
    ∃ token ∈ pp.tokens, token.loc = entry.offset
  sorted : pp.sm.pragmaStateSorted = true → Sorted PragmaStateEntry.offset pp.sm.pragmaStateTable

/-- What is answered with an entry. -/
def SourceManager.valueOf (sm : SourceManager D) (state : Option (ℕ × ℕ)) : ℕ × D :=
  match state with
  | none => (0, sm.getDiagnosticStateById 0)
  | some (pack, id) => (pack, sm.getDiagnosticStateById id)

/-- The entry of a location, without sorting the table for good. -/
def SourceManager.entryAt (sm : SourceManager D) (loc : ℕ) : Option PragmaStateEntry :=
  findPragmaState (stableSort PragmaStateEntry.offset sm.pragmaStateTable) loc

section Steps

variable {pp : PreProcess D} {kind : TokenKind} {loc : ℕ}

section

variable (wf : pp.WellFormed)
include wf

theorem PreProcess.WellFormed.answer_eq (loc : ℕ) :
    pp.sm.answer loc = pp.sm.valueOf ((pp.sm.entryAt loc).map (·.state)) := by
  have read : (findPragmaState pp.sm.ensurePragmaStateSorted.pragmaStateTable loc).map (·.state) =
      (pp.sm.entryAt loc).map (·.state) := by
    rw [SourceManager.ensurePragmaStateSorted]
    split
    case isTrue isSorted => rw [SourceManager.entryAt, (wf.sorted isSorted).stableSort_eq]
    case isFalse => exact collapse_answers stableSort_sorted loc
  rw [SourceManager.answer, SourceManager.getPackAlignment, SourceManager.getDiagnosticState]
  by_cases isZero : loc = 0
  · rw [if_pos isZero, if_pos isZero]
    have none : pp.sm.entryAt loc = none := by
      rw [SourceManager.entryAt, findPragmaState, lastAtOrBelow, getLast?_eq_none_iff,
        filter_eq_nil_iff]
      intro entry member
      have nonzero := (wf.entries entry (mem_stableSort.mp member)).1
      rw [decide_eq_true_eq]
      omega
    rw [none]
    rfl
  · rw [if_neg isZero, if_neg isZero, ← read]
    cases findPragmaState pp.sm.ensurePragmaStateSorted.pragmaStateTable loc <;> rfl

/-- Locations without an entry between them are answered alike. -/
theorem PreProcess.WellFormed.answer_congr {low high : ℕ} (below : low ≤ high)
    (between : ∀ entry ∈ pp.sm.pragmaStateTable, low < entry.offset → ¬ entry.offset ≤ high) :
    pp.sm.answer high = pp.sm.answer low := by
  rw [wf.answer_eq, wf.answer_eq, SourceManager.entryAt, SourceManager.entryAt, findPragmaState,
    findPragmaState, lastAtOrBelow_congr below fun entry member =>
      between entry (mem_stableSort.mp member)]

/-- A token that is recorded: its states answer its location and the following
ones up to the next entry, or the table and all answers stay. -/
theorem PreProcess.WellFormed.recorded (isFile : loc ≠ 0) :
    let sm := pp.sm.recordPragmaState loc pp.currentPackAlignment pp.currentDiagStateId
    sm.diagnosticStates = pp.sm.diagnosticStates ∧
      (∀ entry ∈ sm.pragmaStateTable, entry ∈ pp.sm.pragmaStateTable ∨
        entry = ⟨loc, pp.currentPackAlignment, pp.currentDiagStateId⟩) ∧
      (sm = pp.sm ∧ ((∀ entry ∈ pp.sm.pragmaStateTable, entry.offset ≠ loc) →
          pp.sm.answer loc = pp.inForce) ∨
        sm.pragmaStateSorted = false ∧ ∀ other, sm.valueOf ((sm.entryAt other).map (·.state)) =
          if loc ≤ other ∧ ∀ entry ∈ pp.sm.pragmaStateTable, loc < entry.offset →
              ¬ entry.offset ≤ other then
            pp.inForce
          else pp.sm.answer other) := by
  rw [SourceManager.recordPragmaState, if_neg isFile]
  cases isRecorded : recordEntry pp.sm.pragmaStateTable
      ⟨loc, pp.currentPackAlignment, pp.currentDiagStateId⟩ with
  | none =>
    refine ⟨rfl, fun entry member => .inl member, .inl ⟨rfl, fun absent => ?_⟩⟩
    rw [wf.answer_eq, SourceManager.entryAt, recordEntry_none isRecorded absent]
    rfl
  | some table =>
    refine ⟨rfl, fun entry member => (mem_recordEntry isRecorded member).symm, .inr ⟨rfl, ?_⟩⟩
    intro other
    dsimp only
    rw [SourceManager.entryAt, recordEntry_find isRecorded]
    split
    · rfl
    · rw [wf.answer_eq]
      rfl

theorem PreProcess.WellFormed.emit : (pp.emit kind loc).WellFormed := by
  rw [PreProcess.emit]
  split
  case isTrue => exact wf
  case isFalse =>
    have kept : ∀ entry ∈ pp.sm.pragmaStateTable, entry.offset ≠ 0 ∧
        entry.diagStateId < pp.sm.diagnosticStates.length ∧
        ∃ token ∈ pp.tokens ++ [EmittedToken.mk kind loc pp.inForce], token.loc = entry.offset := by
      intro entry member
      obtain ⟨nonzero, isId, token, isToken, same⟩ := wf.entries entry member
      exact ⟨nonzero, isId, token, mem_append_left _ isToken, same⟩
    by_cases isEof : kind = .eof
    · rw [if_pos isEof]
      exact ⟨wf.current, wf.stack, kept, wf.sorted⟩
    by_cases isZero : loc = 0
    · rw [if_neg isEof, SourceManager.recordPragmaState, if_pos isZero]
      exact ⟨wf.current, wf.stack, kept, wf.sorted⟩
    rw [if_neg isEof]
    obtain ⟨states, entries, same | unsorted⟩ := wf.recorded isZero
    · rw [same.1]
      exact ⟨wf.current, wf.stack, kept, wf.sorted⟩
    · refine ⟨by rw [states]; exact wf.current, by rw [states]; exact wf.stack, ?_, ?_⟩
      · intro entry member
        rw [states]
        rcases entries entry member with old | rfl
        · exact kept entry old
        · exact ⟨isZero, wf.current, _, mem_append_right _ (mem_singleton_self _), rfl⟩
      · intro isSorted
        rw [unsorted.1] at isSorted
        cases isSorted

theorem PreProcess.WellFormed.open_answered_iff (answered : pp.Answered) :
    pp.sm.answer loc = pp.inForce ↔
      (∀ token ∈ pp.tokens, token.loc ≤ loc →
        (∀ entry ∈ pp.sm.pragmaStateTable, entry.offset ≤ loc → entry.offset ≤ token.loc) →
        token.inForce = pp.inForce) ∧
      ((∀ entry ∈ pp.sm.pragmaStateTable, loc < entry.offset) →
        pp.inForce = (0, pp.sm.getDiagnosticStateById 0)) := by
  have atZero : pp.sm.answer 0 = (0, pp.sm.getDiagnosticStateById 0) := rfl
  constructor
  · intro right
    constructor
    · intro token isToken before between
      rw [← answered token isToken, ← right]
      exact (wf.answer_congr before fun entry member above inside =>
        absurd (between entry member inside) (Nat.not_le.mpr above)).symm
    · intro above
      rw [← atZero, ← right]
      exact wf.answer_congr (Nat.zero_le _) fun entry member _ => Nat.not_le.mpr (above entry member)
  · rintro ⟨tokens, start⟩
    by_cases above : ∀ entry ∈ pp.sm.pragmaStateTable, loc < entry.offset
    · rw [start above, ← atZero]
      exact wf.answer_congr (Nat.zero_le _) fun entry member _ => Nat.not_le.mpr (above entry member)
    · -- the last entry in front of the location stands at a token
      obtain ⟨entry, member, inside, greatest⟩ := exists_greatest above
      obtain ⟨-, -, token, isToken, here⟩ := wf.entries entry member
      rw [← tokens token isToken (here.le.trans inside) fun other isOther below =>
          (greatest other isOther below).trans here.ge, ← answered token isToken, here]
      exact wf.answer_congr inside fun other isOther behind below =>
        absurd (greatest other isOther below) (Nat.not_le.mpr behind)

/-- A token keeps the answers right exactly when its step is one of those
allowed. -/
theorem PreProcess.WellFormed.emit_answered_iff (answered : pp.Answered) :
    (pp.emit kind loc).Answered ↔ pp.StepOk (.token kind loc) := by
  have next := @WellFormed.emit _ _ _ kind loc wf
  rw [StepOk]
  cases concatenates : pp.concatenates kind with
  | true =>
    rw [PreProcess.emit, if_pos concatenates]
    exact iff_of_true answered (.inl rfl)
  | false =>
    have isEmit : pp.emit kind loc =
        { pp with
          sm := if kind = .eof then pp.sm
            else pp.sm.recordPragmaState loc pp.currentPackAlignment pp.currentDiagStateId
          tokens := pp.tokens ++ [⟨kind, loc, pp.inForce⟩] } := by
      rw [PreProcess.emit, if_neg (by simp [concatenates])]
    rw [isEmit] at next ⊢
    have tokens : ∀ sm : SourceManager D, PreProcess.Answered
          { pp with sm := sm, tokens := pp.tokens ++ [⟨kind, loc, pp.inForce⟩] } ↔
        (∀ token ∈ pp.tokens, sm.answer token.loc = token.inForce) ∧
          sm.answer loc = pp.inForce := by
      intro sm
      rw [PreProcess.Answered, forall_mem_append, forall_mem_singleton]
    rw [tokens]
    simp only [Bool.false_eq_true, false_or]
    by_cases isOpen : kind = .eof ∨ loc = 0
    · have same : (if kind = .eof then pp.sm
          else pp.sm.recordPragmaState loc pp.currentPackAlignment pp.currentDiagStateId) =
          pp.sm := by
        rcases isOpen with isEof | isZero
        · exact if_pos isEof
        · rw [SourceManager.recordPragmaState, if_pos isZero]
          exact ite_self _
      rw [if_pos isOpen, same]
      refine Iff.trans ?_ (wf.open_answered_iff answered)
      exact and_iff_right answered
    · have isFile := not_or.mp isOpen
      rw [if_neg isFile.1] at next
      rw [if_neg isOpen, if_neg isFile.1]
      obtain ⟨-, entries, unchanged⟩ := wf.recorded isFile.2
      constructor
      · rintro ⟨old, new⟩ token isToken behind between
        rw [← old token isToken, ← new]
        apply next.answer_congr behind
        intro entry member above
        rcases entries entry member with isOld | rfl
        · exact Nat.not_le.mpr (between entry isOld above)
        · exact absurd above (Nat.lt_irrefl _)
      · intro allowed
        rcases unchanged with ⟨same, alone⟩ | ⟨-, changed⟩
        · rw [same]
          refine ⟨answered, ?_⟩
          by_cases absent : ∀ entry ∈ pp.sm.pragmaStateTable, entry.offset ≠ loc
          · exact alone absent
          · obtain ⟨entry, member, here⟩ : ∃ entry ∈ pp.sm.pragmaStateTable, entry.offset = loc := by
              simpa using absent
            obtain ⟨-, -, token, isToken, at_⟩ := wf.entries entry member
            have isLoc : token.loc = loc := at_.trans here
            rw [← allowed token isToken isLoc.ge (fun _ _ above => by omega), ← isLoc]
            exact answered token isToken
        · have answers : ∀ other, (pp.sm.recordPragmaState loc pp.currentPackAlignment
              pp.currentDiagStateId).answer other = _ := fun other =>
            (next.answer_eq other).trans (changed other)
          constructor
          · intro token isToken
            rw [answers]
            split
            case isTrue inside =>
              exact (allowed token isToken inside.1 fun entry member above =>
                Nat.not_le.mp (inside.2 entry member above)).symm
            case isFalse => exact answered token isToken
          · rw [answers, if_pos ⟨Nat.le_refl _, fun _ _ above => Nat.not_le.mpr above⟩]

theorem PreProcess.WellFormed.step (event : Event D) :
    (pp.step event).WellFormed := by
  cases event with
  | token kind loc => exact wf.emit
  | packReset | packPush value | packSet value =>
    exact ⟨wf.current, wf.stack, wf.entries, wf.sorted⟩
  | packPop =>
    rw [PreProcess.step]
    split
    · exact wf
    · exact ⟨wf.current, wf.stack, wf.entries, wf.sorted⟩
  | diagnosticPush =>
    exact ⟨wf.current, forall_mem_cons.mpr ⟨wf.current, wf.stack⟩, wf.entries, wf.sorted⟩
  | diagnosticPop =>
    rw [PreProcess.step]
    split
    · exact wf
    · rename_i top rest isStack
      have ids := wf.stack
      rw [isStack] at ids
      exact ⟨(forall_mem_cons.mp ids).1, (forall_mem_cons.mp ids).2, wf.entries, wf.sorted⟩
  | diagnosticSet change =>
    refine ⟨?_, ?_, ?_, wf.sorted⟩
    · simp [PreProcess.step]
    · intro id member
      simp only [PreProcess.step, length_append, length_singleton]
      exact lt_succ_of_lt (wf.stack id member)
    · intro entry member
      obtain ⟨nonzero, isId, token⟩ := wf.entries entry member
      refine ⟨nonzero, ?_, token⟩
      simp only [PreProcess.step, length_append, length_singleton]
      exact lt_succ_of_lt isId
  | query =>
    rw [PreProcess.step, SourceManager.ensurePragmaStateSorted]
    split
    · exact wf
    · exact ⟨wf.current, wf.stack, fun entry member =>
          wf.entries entry (mem_stableSort.mp (collapse_sublist.subset member)), fun _ =>
        List.Pairwise.sublist collapse_sublist stableSort_sorted⟩

theorem PreProcess.WellFormed.step_answered_iff (answered : pp.Answered) (event : Event D) :
    (pp.step event).Answered ↔ pp.StepOk event := by
  cases event with
  | token kind loc => exact wf.emit_answered_iff answered
  | packReset | packPush value | packSet value | diagnosticPush =>
    exact iff_of_true answered trivial
  | packPop | diagnosticPop =>
    refine iff_of_true ?_ trivial
    rw [PreProcess.step]
    split <;> exact answered
  | diagnosticSet change =>
    refine iff_of_true (fun token isToken => ?_) trivial
    rw [← answered token isToken, (wf.step (.diagnosticSet change)).answer_eq, wf.answer_eq]
    have states : ∀ id < pp.sm.diagnosticStates.length,
        (pp.step (.diagnosticSet change)).sm.getDiagnosticStateById id =
          pp.sm.getDiagnosticStateById id := by
      intro id isId
      simp only [PreProcess.step, SourceManager.getDiagnosticStateById, getD_eq_getElem?_getD]
      rw [getElem?_append_left isId, getElem?_eq_getElem isId]
      rfl
    change (pp.step (.diagnosticSet change)).sm.valueOf ((pp.sm.entryAt token.loc).map (·.state)) = _
    cases isEntry : pp.sm.entryAt token.loc with
    | none =>
      exact Prod.ext rfl (states 0 (zero_lt_of_lt wf.current))
    | some entry =>
      have member := mem_stableSort.mp (mem_filter.mp (mem_of_getLast? isEntry)).1
      exact Prod.ext rfl (states entry.diagStateId (wf.entries entry member).2.1)
  | query =>
    refine iff_of_true (fun token isToken => ?_) trivial
    have same : pp.sm.ensurePragmaStateSorted.ensurePragmaStateSorted =
        pp.sm.ensurePragmaStateSorted := by
      rw [SourceManager.ensurePragmaStateSorted.eq_1 pp.sm.ensurePragmaStateSorted, if_pos]
      rw [SourceManager.ensurePragmaStateSorted]
      split
      · assumption
      · rfl
    have states : pp.sm.ensurePragmaStateSorted.getDiagnosticStateById =
        pp.sm.getDiagnosticStateById := by
      rw [SourceManager.ensurePragmaStateSorted]
      split <;> rfl
    rw [← answered token isToken, PreProcess.step]
    simp only [SourceManager.answer, SourceManager.getPackAlignment,
      SourceManager.getDiagnosticState, same, states]

end

end Steps

theorem PreProcess.wellFormed_run (events : List (Event D)) :
    (PreProcess.run events : PreProcess D).WellFormed := by
  induction events using reverseRecOn with
  | nil => exact ⟨Nat.one_pos, by simp [PreProcess.run, PreProcess.initial],
      by simp [PreProcess.run, PreProcess.initial], fun _ => List.Pairwise.nil⟩
  | append_singleton events event induction =>
    rw [PreProcess.run, foldl_append]
    exact induction.step event

/-- In every state that a run reaches the tokens are answered with their states,
exactly when none of its steps takes over the location of a token with other
ones. -/
theorem tokens_answered_iff (events : List (Event D)) :
    (∀ before, before <+: events → (PreProcess.run before).Answered) ↔
      ∀ before event, before ++ [event] <+: events → (PreProcess.run before).StepOk event := by
  have next : ∀ (before : List (Event D)) event,
      PreProcess.run (before ++ [event]) = (PreProcess.run before).step event := by
    intro before event
    rw [PreProcess.run, foldl_append]
    rfl
  constructor
  · intro answered before event isPrefix
    have start := answered before ((prefix_append _ _).trans isPrefix)
    apply ((PreProcess.wellFormed_run before).step_answered_iff start event).mp
    rw [← next]
    exact answered _ isPrefix
  · intro allowed before
    induction before using reverseRecOn with
    | nil =>
      intro _ token isToken
      cases isToken
    | append_singleton before event induction =>
      intro isPrefix
      rw [next]
      exact ((PreProcess.wellFormed_run before).step_answered_iff
        (induction ((prefix_append _ _).trans isPrefix)) event).mpr
        (allowed before event isPrefix)

/-- A header of one token, included under two pack alignments. -/
theorem includedTwice_not_answered :
    ¬ (PreProcess.run (.packSet 1 :: includeFile 10 [0] ++ .packReset :: includeFile 10 [0] :
      List (Event Unit))).Answered := by
  intro answered
  have first := answered ⟨.other, 10, (1, ())⟩ mem_cons_self
  revert first
  decide

end Aburi.Source
