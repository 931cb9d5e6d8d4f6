import Aburi.Backend.LsdaActions
import Aburi.Backend.LsdaTypes

/-!
# Exception tables decode to the handlers

The emitted table is read back by the rules of the personality routine.
-/

namespace Aburi.Backend.Eh

open Aburi.Lib List Option Bool Function Prod
open List (mapM replicate)

theorem lookup_of_mem {entries : List (ℕ × ℕ)} (distinct : (entries.map fst).Nodup)
    {key value : ℕ} (member : (key, value) ∈ entries) : entries.lookup key = some value := by
  induction entries with
  | nil => cases member
  | cons entry entries induction =>
    obtain ⟨first, rest⟩ := nodup_cons.mp distinct
    rcases mem_cons.mp member with same | later
    · rw [← same]
      exact lookup_cons_self
    · have differs : key ≠ entry.1 := by
        intro same
        exact first (same ▸ List.mem_map_of_mem later)
      rw [lookup_cons, beq_false_of_ne differs]
      exact induction rest later

theorem mapM_eq_map {α β : Type} {f : α → Option β} {g : α → β} {inputs : List α}
    (all : ∀ input ∈ inputs, f input = some (g input)) : inputs.mapM f = some (inputs.map g) := by
  induction inputs with
  | nil => rfl
  | cons input inputs induction =>
    rw [mapM_cons, all input mem_cons_self,
      induction fun other member => all other (mem_cons_of_mem _ member)]
    rfl

theorem eq_of_ordered {α : Type} {key : α → ℕ} {entries : List α}
    (ordered : entries.Pairwise fun first second => key first < key second) {first second : α}
    (isFirst : first ∈ entries) (isSecond : second ∈ entries) (same : key first = key second) :
    first = second := by
  obtain ⟨firstIndex, firstSmall, rfl⟩ := mem_iff_getElem.mp isFirst
  obtain ⟨secondIndex, secondSmall, rfl⟩ := mem_iff_getElem.mp isSecond
  rw [pairwise_iff_getElem] at ordered
  rcases Nat.lt_trichotomy firstIndex secondIndex with before | rfl | after
  · have := ordered _ _ firstSmall secondSmall before
    omega
  · rfl
  · have := ordered _ _ secondSmall firstSmall after
    omega

theorem codeSize_cons (piece : Piece) (pieces : List Piece) :
    codeSize (piece :: pieces) = piece.size + codeSize pieces := rfl

theorem placeInvokes_pairwise (offset : ℕ) (pieces : List Piece) :
    (placeInvokes offset pieces).Pairwise (fun first second =>
      first.2 + first.1.size ≤ second.2) ∧
      ∀ placed ∈ placeInvokes offset pieces,
        offset ≤ placed.2 ∧ placed.2 + placed.1.size ≤ offset + codeSize pieces := by
  induction pieces generalizing offset with
  | nil => exact ⟨List.Pairwise.nil, fun _ absent => absurd absent not_mem_nil⟩
  | cons piece pieces induction =>
    rw [codeSize_cons]
    cases piece with
    | code size =>
      obtain ⟨ordered, inside⟩ := induction (offset + size)
      refine ⟨ordered, fun placed member => ?_⟩
      have := inside placed member
      simp only [Piece.size]
      omega
    | invoke call =>
      obtain ⟨ordered, inside⟩ := induction (offset + call.size)
      rw [placeInvokes]
      constructor
      · rw [pairwise_cons]
        exact ⟨fun placed member => (inside placed member).1, ordered⟩
      · intro placed member
        simp only [Piece.size]
        rcases mem_cons.mp member with rfl | later
        · dsimp only
          omega
        · have := inside placed later
          omega

theorem ordered_of_pairwise {functionEnd : ℕ} {toSite : Invoke × ℕ → ResolvedCallSite}
    (begins : ∀ placed, (toSite placed).beginOffset = placed.2)
    (ends : ∀ placed, (toSite placed).endOffset = placed.2 + placed.1.size)
    {placed : List (Invoke × ℕ)} {previous : ℕ}
    (pairwise : placed.Pairwise fun first second => first.2 + first.1.size ≤ second.2)
    (inside : ∀ call ∈ placed, previous ≤ call.2 ∧ call.2 + call.1.size ≤ functionEnd)
    (sized : ∀ call ∈ placed, 0 < call.1.size) (reaches : previous ≤ functionEnd) :
    Ordered functionEnd previous (placed.map toSite) := by
  induction placed generalizing previous with
  | nil => exact reaches
  | cons call placed induction =>
    obtain ⟨before, rest⟩ := pairwise_cons.mp pairwise
    have here := inside call mem_cons_self
    have positive := sized call mem_cons_self
    rw [map_cons]
    refine ⟨?_, ?_, ?_⟩
    · rw [begins]
      exact here.1
    · rw [begins, ends]
      omega
    · rw [ends]
      apply induction rest
      · intro other member
        exact ⟨before other member, (inside other (mem_cons_of_mem _ member)).2⟩
      · intro other member
        exact sized other (mem_cons_of_mem _ member)
      · exact here.2

namespace EhFunction

variable (function : EhFunction)

theorem invokes_pairwise : function.invokes.Pairwise fun first second =>
    first.2 + first.1.size ≤ second.2 := (placeInvokes_pairwise _ _).1

theorem invokes_inside : ∀ call ∈ function.invokes,
    function.start ≤ call.2 ∧ call.2 + call.1.size ≤ function.functionEnd :=
  (placeInvokes_pairwise _ _).2

theorem mem_selected {call : Invoke × ℕ} (member : call ∈ function.invokes) :
    call.1 ∈ function.selected :=
  function.placed.mem_iff.mpr (List.mem_map_of_mem member)

theorem exists_placed {invoke : Invoke} (member : invoke ∈ function.selected) :
    ∃ offset, (invoke, offset) ∈ function.invokes := by
  obtain ⟨⟨found, offset⟩, isPlaced, rfl⟩ := List.mem_map.mp (function.placed.mem_iff.mp member)
  exact ⟨offset, isPlaced⟩

theorem labels_distinct : ((ehLabelOffsets function.invokes).map fst).Nodup := by
  have sameLabels : (ehLabelOffsets function.invokes).map fst =
      (function.invokes.map fst).flatMap fun invoke =>
        [invoke.beginLabel, invoke.endLabel] := by
    rw [ehLabelOffsets, map_flatMap, flatMap_map]
    rfl
  rw [sameLabels]
  exact (function.placed.flatMap_right _).nodup_iff.mp function.labels

theorem label_offsets {call : Invoke × ℕ} (member : call ∈ function.invokes) :
    (ehLabelOffsets function.invokes).lookup call.1.beginLabel = some call.2 ∧
      (ehLabelOffsets function.invokes).lookup call.1.endLabel = some (call.2 + call.1.size) := by
  constructor
  · apply lookup_of_mem function.labels_distinct
    exact mem_flatMap.mpr ⟨call, member, mem_cons_self⟩
  · apply lookup_of_mem function.labels_distinct
    exact mem_flatMap.mpr ⟨call, member, mem_cons_of_mem _ mem_cons_self⟩

/-- The place of a block. -/
def blockStart (block : ℕ) : ℕ :=
  function.start + codeSize (function.blocks.take block).flatten

theorem blockOffset_eq {block : ℕ} (small : block < function.blocks.length) :
    blockOffset function.start function.blocks block = some (function.blockStart block) :=
  if_pos small

/-- Only the entry block stands at the start of the function. -/
theorem start_lt_blockStart {block : ℕ} (notEntry : block ≠ 0) :
    function.start < function.blockStart block := by
  obtain ⟨block, rfl⟩ := Nat.exists_eq_succ_of_ne_zero notEntry
  have prologue := function.prologue
  rw [blockStart]
  cases isBlocks : function.blocks with
  | nil =>
    rw [isBlocks] at prologue
    cases prologue
  | cons entry blocks =>
    rw [isBlocks, take_succ_cons, take_zero] at prologue
    rw [take_succ_cons, flatten_cons, codeSize, map_append, sum_append]
    rw [flatten_singleton, codeSize] at prologue
    omega

/-- A call as the call-site table has it. -/
def siteOf (out : EhActions) (actionOffsets : List (ℕ × ℕ)) (call : Invoke × ℕ) :
    ResolvedCallSite where
  beginOffset := call.2
  endOffset := call.2 + call.1.size
  landingPad := function.blockStart call.1.unwind
  action := (resolveAction actionOffsets (out.actionForBlock call.1.unwind)).getD 0

end EhFunction

section Sites

variable {function : EhFunction} {out : EhActions} {actionOffsets : List (ℕ × ℕ)}
  {format : ObjectFormat}

theorem sites_sorted
    (resolves : ∀ call ∈ function.invokes,
      ∃ action, resolveAction actionOffsets (out.actionForBlock call.1.unwind) = some action) :
    ∃ sites, (function.ehCallSites out).mapM
        (resolveSite format (ehLabelOffsets function.invokes)
          (blockOffset function.start function.blocks) actionOffsets) = some sites ∧
      sortedSites sites = function.invokes.map (function.siteOf out actionOffsets) := by
  -- a selected call with the offset that its label has
  let locate := fun invoke : Invoke =>
    (invoke, ((ehLabelOffsets function.invokes).lookup invoke.beginLabel).getD 0)
  have located : ∀ call ∈ function.invokes, locate call.1 = call := by
    intro call member
    simp only [locate]
    rw [(function.label_offsets member).1]
    rfl
  refine ⟨function.selected.map fun invoke =>
    function.siteOf out actionOffsets (locate invoke), ?_, ?_⟩
  · rw [EhFunction.ehCallSites, mapM_map]
    apply mapM_eq_map
    intro invoke member
    obtain ⟨offset, isPlaced⟩ := function.exists_placed member
    obtain ⟨begins, ends⟩ := function.label_offsets isPlaced
    obtain ⟨action, isAction⟩ := resolves _ isPlaced
    obtain ⟨-, small, -⟩ := function.padded invoke member
    rw [located _ isPlaced]
    dsimp only at begins ends isAction
    simp only [comp, resolveSite, begins, ends, function.blockOffset_eq small, isAction,
      bind_eq_bind, bind_some, EhFunction.siteOf, getD_some]
    rw [if_neg (by omega)]
  · have sameSites : (function.selected.map fun invoke =>
        function.siteOf out actionOffsets (locate invoke)).Perm
        (function.invokes.map (function.siteOf out actionOffsets)) := by
      refine (function.placed.map _).trans ?_
      change ((function.invokes.map fst).map _).Perm _
      rw [List.map_map]
      apply List.Perm.of_eq
      apply map_congr_left
      intro call member
      simp only [comp]
      rw [located call member]
    have ordered : (function.invokes.map (function.siteOf out actionOffsets)).Pairwise
        fun first second => first.beginOffset < second.beginOffset := by
      rw [pairwise_map]
      refine function.invokes_pairwise.imp_of_mem ?_
      intro first second isFirst _ before
      have positive := function.sized _ (function.mem_selected isFirst)
      simp only [EhFunction.siteOf]
      omega
    refine ((mergeSort_perm _ _).trans sameSites).eq_of_pairwise ?_
      (pairwise_mergeSort ?_ ?_ _) (ordered.imp fun less => decide_eq_true less.le)
    · intro first second isFirst isSecond atMost atLeast
      rw [decide_eq_true_iff] at atMost atLeast
      have isFirst := sameSites.mem_iff.mp ((mergeSort_perm _ _).mem_iff.mp isFirst)
      exact eq_of_ordered ordered isFirst isSecond (by omega)
    · intro first second third atMost atMost'
      rw [decide_eq_true_iff] at atMost atMost' ⊢
      omega
    · intro first second
      rw [or_eq_true, decide_eq_true_iff, decide_eq_true_iff]
      omega

end Sites

/-- What the reader finds in the call-site and action tables. -/
structure TablesRead (function : EhFunction) (callSites actions : List UInt8) : Prop where
  inside : ∀ call ∈ function.invokes, ∀ pad ∈ function.pads, pad.block = call.1.unwind →
    ∀ address, call.2 ≤ address → address < call.2 + call.1.size →
    ∃ action filters,
      findSite callSites.length callSites (address - function.start) =
        some (function.blockStart call.1.unwind - function.start, action) ∧
      padFilters function.mod function.pads (function.mod.ehLandingPadPayload pad.payload) =
        some filters ∧
      (filters = [] → action = 0) ∧
      (filters ≠ [] → action ≠ 0 ∧
        ∀ tail, readChain (actions ++ tail) (actions ++ tail).length (action - 1) = some filters)
  outside : ∀ address, function.start ≤ address → address < function.functionEnd →
    (∀ call ∈ function.invokes, address < call.2 ∨ call.2 + call.1.size ≤ address) →
    findSite callSites.length callSites (address - function.start) = some (0, 0)

theorem emitTables_spec (format : ObjectFormat) (function : EhFunction) :
    ∃ callSites actions, emitTables format function = some (callSites, actions) ∧
      TablesRead function callSites actions := by
  obtain ⟨out, isBuilt, linked, chains⟩ := @build_spec function.mod function.pads function.onePad
  obtain ⟨offsets, actions, isEmitted, recorded, enough⟩ :=
    @emitActions_recorded out.ehActions [] [] [] linked.label
      (fun _ absent => absurd absent not_mem_nil) (Nat.le_refl _)
  rw [nil_append] at recorded enough
  -- the action of a pad, resolved
  have resolved : ∀ pad ∈ function.pads, ∃ action filters,
      resolveAction offsets (out.actionForBlock pad.block) = some action ∧
      padFilters function.mod function.pads (function.mod.ehLandingPadPayload pad.payload) =
        some filters ∧
      (filters = [] → action = 0) ∧
      (filters ≠ [] → action ≠ 0 ∧
        ∀ tail, readChain (actions ++ tail) (actions ++ tail).length (action - 1) =
          some filters) := by
    intro pad isPad
    obtain ⟨filters, isFilters, chain⟩ := chains pad isPad
    by_cases isEmpty : filters = []
    · rw [isEmpty] at chain
      refine ⟨0, filters, ?_, isFilters, fun _ => rfl, fun nonempty => absurd isEmpty nonempty⟩
      rw [show out.actionForBlock pad.block = 0 from chain]
      rfl
    · have length := chain.length_le linked
      have label := chain.label_le linked
      have positive : 0 < filters.length := length_pos_iff.mpr isEmpty
      obtain ⟨offset, isOffset, -⟩ := readChain_eq linked recorded [] chain isEmpty (Nat.le_refl _)
      refine ⟨offset + 1, filters, ?_, isFilters, fun empty => absurd empty isEmpty, fun _ =>
        ⟨Nat.succ_ne_zero _, fun tail => ?_⟩⟩
      · rw [resolveAction, if_neg (by omega), isOffset]
        rfl
      · obtain ⟨offset', isOffset', read⟩ :=
          @readChain_eq out linked offsets actions recorded tail filters _ (actions ++ tail).length
            chain isEmpty (by rw [length_append]; omega)
        rw [isOffset] at isOffset'
        cases isOffset'
        exact read
  have padOf : ∀ call ∈ function.invokes, ∃ pad ∈ function.pads, pad.block = call.1.unwind := by
    intro call member
    obtain ⟨-, -, isPadded⟩ := function.padded _ (function.mem_selected member)
    obtain ⟨pad, isPad, isBlock⟩ := List.mem_map.mp isPadded
    exact ⟨pad, isPad, isBlock⟩
  obtain ⟨sites, isResolved, isSorted⟩ := @sites_sorted function out offsets format (by
    intro call member
    obtain ⟨pad, isPad, isBlock⟩ := padOf call member
    obtain ⟨action, _, isAction, _⟩ := resolved pad isPad
    exact ⟨action, isBlock ▸ isAction⟩)
  have ordered := @ordered_of_pairwise function.functionEnd (function.siteOf out offsets)
    (fun _ => rfl) (fun _ => rfl) function.invokes function.start function.invokes_pairwise
    function.invokes_inside (fun call member => function.sized _ (function.mem_selected member))
    (Nat.le_add_right _ _)
  obtain ⟨callSites, isTable, found⟩ := siteTable_spec ordered (Nat.le_refl _)
  refine ⟨callSites, actions, ?_, ?_, ?_⟩
  · simp only [emitTables, isBuilt, isEmitted, isResolved, isSorted, isTable, bind_eq_bind,
      bind_some]
  · intro call member pad isPad isBlock address atLeast before
    obtain ⟨action, filters, isAction, isFilters, noAction, read⟩ := resolved pad isPad
    have bounds := function.invokes_inside call member
    have entry := (found address callSites.length (by omega) (by omega) (Nat.le_refl _)).1
      (function.siteOf out offsets call) (List.mem_map_of_mem member) atLeast before
    refine ⟨action, filters, ?_, isFilters, noAction, read⟩
    rw [entry, EhFunction.siteOf]
    dsimp only
    rw [← isBlock, isAction]
    rfl
  · intro address atLeast before notInside
    apply (found address callSites.length atLeast before (Nat.le_refl _)).2
    intro site member
    obtain ⟨call, isCall, rfl⟩ := List.mem_map.mp member
    exact notInside call isCall

section Filters

variable {mod : EhModule} {pads : List LandingPad} {format : ObjectFormat} {lsda : Lsda}
  {base : ℕ} {front tail : List UInt8}

theorem readFilter_entry {index : ℕ} {info : MEhTypeInfo}
    (isInfo : (descendingTypeinfos mod pads)[index]? = some info)
    (relocs : lsda.relocs = typeRelocs format base (descendingTypeinfos mod pads))
    (isBase : front.length = base)
    (bytes : lsda.bytes =
      front ++ ((descendingTypeinfos mod pads).flatMap (typeEntry format) ++ tail)) :
    readFilter lsda (some (base + 4 * (descendingTypeinfos mod pads).length))
      (Int.ofNat info.filter) =
      some (if info.symbol = "" then .catchAll else .typeinfo info.symbol) := by
  have small := (List.getElem?_eq_some_iff.mp isInfo).1
  have filter := descendingTypeinfos_filter mod pads isInfo
  have place : base + 4 * (descendingTypeinfos mod pads).length - 4 * info.filter =
      base + 4 * index := by omega
  rw [readFilter, if_neg (by simp; omega), if_neg (by simp), bind_some]
  change readType lsda _ info.filter = _
  rw [readType, if_neg (by omega), place, relocs, typeRelocs_lookup isInfo, bytes, ← isBase,
    ← List.drop_drop, drop_left, typeEntries_take isInfo]
  by_cases unnamed : info.symbol = ""
  · rw [if_pos unnamed, if_pos unnamed]
    dsimp only
    rw [if_pos (by unfold typeEntry; rw [if_pos unnamed])]
  · rw [if_neg unnamed, if_neg unnamed]
    cases format <;> rfl

theorem descending_order {index global : ℕ}
    (isGlobal : (typeinfoOrder mod pads)[index]? = some global) :
    (descendingTypeinfos mod pads)[index]? =
      some ⟨filterAt mod pads index, mod.targetSymbolName global⟩ := by
  have small := (List.getElem?_eq_some_iff.mp isGlobal).1
  rw [descendingTypeinfos, getElem?_append_left (by rwa [length_mapIdx]), getElem?_mapIdx, isGlobal]
  rfl

theorem descending_catchAll (catches : hasCatchAll mod pads = true) :
    (descendingTypeinfos mod pads)[(typeinfoOrder mod pads).length]? = some ⟨1, ""⟩ := by
  rw [descendingTypeinfos, if_pos catches,
    getElem?_append_right (by rw [length_mapIdx]), length_mapIdx, Nat.sub_self]
  rfl

theorem readFilters {pad : LandingPad} (isPad : pad ∈ pads)
    (named : ∀ global, mod.targetSymbolName global ≠ "") {filters : List ℤ}
    (isFilters : padFilters mod pads (mod.ehLandingPadPayload pad.payload) = some filters)
    (nonempty : filters ≠ [])
    (relocs : lsda.relocs = typeRelocs format base (descendingTypeinfos mod pads))
    (isBase : front.length = base)
    (bytes : lsda.bytes =
      front ++ ((descendingTypeinfos mod pads).flatMap (typeEntry format) ++ tail)) :
    filters.mapM (readFilter lsda (some (base + 4 * (descendingTypeinfos mod pads).length))) =
      some (padHandlers mod pad) := by
  generalize isPayload : mod.ehLandingPadPayload pad.payload = payload at *
  rw [padFilters, map_eq_some_iff] at isFilters
  obtain ⟨typed, isTyped, same⟩ := isFilters
  dsimp only at same
  -- the clauses one by one
  have clauses : ∀ (globals : List ℕ) (typed : List ℕ),
      (∀ global ∈ globals, global ∈ payload.clauseTypeinfos) →
      globals.mapM (typeinfoFilterFor mod pads) = some typed →
      (typed.map Int.ofNat).mapM
        (readFilter lsda (some (base + 4 * (descendingTypeinfos mod pads).length))) =
        some (globals.map fun global => .typeinfo (mod.targetSymbolName global)) := by
    intro globals
    induction globals with
    | nil =>
      intro typed _ isTyped
      cases isTyped
      rfl
    | cons global globals induction =>
      intro typed are isTyped
      rw [← isPayload] at are
      obtain ⟨index, isGlobal, isFilter⟩ := typeinfoFilterFor_eq isPad (are global mem_cons_self)
      rw [isPayload] at are
      rw [mapM_cons, isFilter] at isTyped
      simp only [Option.pure_def, bind_eq_bind, bind_some,
        bind_eq_some_iff, Option.some.injEq] at isTyped
      obtain ⟨rest, isRest, rfl⟩ := isTyped
      have here := readFilter_entry (descending_order isGlobal) relocs isBase bytes
      dsimp only at here
      rw [if_neg (named global)] at here
      rw [map_cons, mapM_cons, here,
        induction rest (fun other member => are other (mem_cons_of_mem _ member)) isRest]
      rfl
  have onClauses := clauses _ typed (fun _ member => member) isTyped
  have onCatchAll : (if payload.hasCatchAll then [(1 : ℤ)] else []).mapM
      (readFilter lsda (some (base + 4 * (descendingTypeinfos mod pads).length))) =
      some (if payload.hasCatchAll then [.catchAll] else []) := by
    split
    case isTrue catches =>
      have any : hasCatchAll mod pads = true := by
        rw [hasCatchAll, List.any_eq_true]
        exact ⟨pad, isPad, by rw [isPayload]; exact catches⟩
      have here := readFilter_entry (descending_catchAll any) relocs isBase bytes
      rw [if_pos rfl] at here
      rw [mapM_cons]
      change (readFilter lsda _ (Int.ofNat 1) >>= _) = _
      rw [here]
      rfl
    case isFalse => rfl
  have onCleanup : ([0] : List ℤ).mapM
      (readFilter lsda (some (base + 4 * (descendingTypeinfos mod pads).length))) =
      some [.cleanup] := rfl
  rw [padHandlers, isPayload, ← same]
  by_cases cleanup : payload.isCleanup = true
  · have hasFilters : (typed.map Int.ofNat ++
        if payload.hasCatchAll = true then [1] else []).isEmpty = false := by
      by_contra empty
      rw [not_eq_false, List.isEmpty_iff] at empty
      apply nonempty
      rw [← same, cleanup, empty]
      rfl
    rw [cleanup, hasFilters]
    simp only [Bool.not_false, Bool.and_self, if_true]
    rw [mapM_append, mapM_append, onClauses, onCatchAll, onCleanup]
    rfl
  · rw [not_eq_true] at cleanup
    rw [cleanup]
    simp only [Bool.false_and, false_eq_true, if_false, append_nil]
    rw [mapM_append, onClauses, onCatchAll]
    rfl

end Filters

section Whole

variable {function : EhFunction} {format : ObjectFormat} {lsda : Lsda}
  {callSites actions rest : List UInt8} {typeBase : Option ℕ}

/-- A table whose parts the reader finds describes the function. -/
theorem describes_of_read (tables : TablesRead function callSites actions)
    (header : readHeader lsda.bytes = some ⟨typeBase, callSites, actions ++ rest⟩)
    (onFilters : ∀ pad ∈ function.pads, ∀ filters,
      padFilters function.mod function.pads (function.mod.ehLandingPadPayload pad.payload) =
        some filters → filters ≠ [] →
      filters.mapM (readFilter lsda typeBase) = some (padHandlers function.mod pad)) :
    Describes function (some lsda) := by
  constructor
  · intro invoke offset member pad isPad isBlock address atLeast before
    obtain ⟨action, filters, found, isFilters, noAction, read⟩ :=
      tables.inside (invoke, offset) member pad isPad isBlock address atLeast before
    obtain ⟨notEntry, small, -⟩ := function.padded invoke (function.mem_selected member)
    have behind := function.start_lt_blockStart notEntry
    refine ⟨_, function.blockOffset_eq small, ?_⟩
    rw [lookupAddress, readAddress, header]
    simp only [bind_eq_bind, bind_some, found]
    rw [if_neg (by omega)]
    by_cases isEmpty : filters = []
    · -- a pad without filters is a cleanup
      rw [if_pos (noAction isEmpty)]
      rw [padFilters, map_eq_some_iff] at isFilters
      obtain ⟨typed, isTyped, same⟩ := isFilters
      dsimp only at same
      rw [isEmpty] at same
      have none : typed = [] ∧
          (function.mod.ehLandingPadPayload pad.payload).hasCatchAll = false := by
        generalize isAll : (typed.map Int.ofNat ++
          if (function.mod.ehLandingPadPayload pad.payload).hasCatchAll = true then [1] else []) =
          all at same
        have allEmpty : all = [] := by
          split at same
          · exact (append_eq_nil_iff.mp same).1
          · exact same
        rw [allEmpty, append_eq_nil_iff, map_eq_nil_iff] at isAll
        refine ⟨isAll.1, ?_⟩
        by_contra catches
        rw [not_eq_false] at catches
        rw [if_pos catches] at isAll
        exact absurd isAll.2 (by simp)
      have noClauses : (function.mod.ehLandingPadPayload pad.payload).clauseTypeinfos = [] := by
        cases isClauses : (function.mod.ehLandingPadPayload pad.payload).clauseTypeinfos with
        | nil => rfl
        | cons global globals =>
          rw [isClauses, mapM_cons, none.1] at isTyped
          simp only [Option.pure_def, bind_eq_bind, bind_eq_some_iff, Option.some.injEq] at isTyped
          obtain ⟨_, _, _, _, same⟩ := isTyped
          cases same
      have cleanup : (function.mod.ehLandingPadPayload pad.payload).isCleanup = true := by
        rcases function.clauses pad isPad with isCleanup | catches | clauses
        · exact isCleanup
        · rw [none.2] at catches
          cases catches
        · exact absurd noClauses clauses
      rw [padHandlers]
      simp [noClauses, none.2, cleanup]
    · obtain ⟨isAction, readAction⟩ := read isEmpty
      rw [if_neg isAction, readAction rest]
      simp only [bind_some]
      rw [onFilters pad isPad filters isFilters isEmpty]
      rfl
  · intro address atLeast before notInside
    have found := tables.outside address atLeast before fun call member =>
      notInside call.1 call.2 member
    rw [lookupAddress, readAddress, header]
    simp only [bind_eq_bind, bind_some, found, if_true]

/-- A pad with filters has an entry in the type table. -/
theorem typeinfos_ne_nil {pad : LandingPad} (isPad : pad ∈ function.pads) {filters : List ℤ}
    (isFilters : padFilters function.mod function.pads
      (function.mod.ehLandingPadPayload pad.payload) = some filters) (nonempty : filters ≠ []) :
    descendingTypeinfos function.mod function.pads ≠ [] := by
  intro isEmpty
  rw [descendingTypeinfos, append_eq_nil_iff] at isEmpty
  have noOrder : typeinfoOrder function.mod function.pads = [] := by
    have lengths := congrArg List.length isEmpty.1
    rw [length_mapIdx] at lengths
    exact eq_nil_of_length_eq_zero lengths
  have noCatchAll : (function.mod.ehLandingPadPayload pad.payload).hasCatchAll = false := by
    by_contra catches
    rw [not_eq_false] at catches
    have any : hasCatchAll function.mod function.pads = true := by
      rw [hasCatchAll, List.any_eq_true]
      exact ⟨pad, isPad, catches⟩
    rw [if_pos any] at isEmpty
    exact absurd isEmpty.2 (by simp)
  have noClauses : (function.mod.ehLandingPadPayload pad.payload).clauseTypeinfos = [] := by
    cases isClauses : (function.mod.ehLandingPadPayload pad.payload).clauseTypeinfos with
    | nil => rfl
    | cons global globals =>
      have member := @mem_typeinfoOrder function.mod function.pads pad isPad global (by
        rw [isClauses]
        exact mem_cons_self)
      rw [noOrder] at member
      cases member
  rw [padFilters, noClauses, noCatchAll] at isFilters
  simp only [mapM_nil, Option.pure_def, map_some, map_nil, nil_append,
    false_eq_true, if_false, isEmpty_nil, Bool.not_true, Bool.and_false,
    Option.some.injEq] at isFilters
  exact nonempty isFilters.symm

/-- Sizes of the tables in front of the type table for which the loop swings. -/
def EhFunction.SizeSwings (format : ObjectFormat) (function : EhFunction) : Prop :=
  function.selected ≠ [] ∧ ehTypeinfos function.mod function.pads ≠ [] ∧
    ∃ callSites actions, emitTables format function = some (callSites, actions) ∧
      Swings (tablesSize callSites actions + (ehTypeinfos function.mod function.pads).length * 4)

theorem EhFunction.descendingTypeinfos_perm (function : EhFunction) :
    (descendingTypeinfos function.mod function.pads).Perm
      (ehTypeinfos function.mod function.pads) := by
  rw [← sortedTypeinfos_eq]
  exact mergeSort_perm _ _

theorem emitLsda_of_sizeSwings (swings : function.SizeSwings format) (fuel : ℕ) :
    emitLsda format fuel function = none := by
  obtain ⟨selected, hasTypes, callSites, actions, isTables, swings⟩ := swings
  have same := function.descendingTypeinfos_perm
  have notEmpty : (descendingTypeinfos function.mod function.pads).isEmpty = false := by
    rw [isEmpty_eq_false_iff]
    intro isEmpty
    rw [isEmpty] at same
    exact hasTypes same.symm.eq_nil
  have someSelected : function.selected.isEmpty = false := isEmpty_eq_false_iff.mpr selected
  have noValue : ttypeLoop (tablesSize callSites actions)
      (descendingTypeinfos function.mod function.pads).length fuel 1 = none := by
    rw [same.length_eq]
    cases isLoop : ttypeLoop (tablesSize callSites actions)
        (ehTypeinfos function.mod function.pads).length fuel 1 with
    | none => rfl
    | some value => exact absurd swings (ttypeLoop_ends_iff.mp ⟨fuel, value, isLoop⟩)
  rw [emitLsda, someSelected]
  simp only [false_eq_true, if_false, isTables, bind_eq_bind, bind_some,
    sortedTypeinfos_eq, notEmpty, noValue, bind_none]

theorem emitLsda_of_not_sizeSwings (ends : ¬ function.SizeSwings format) :
    ∃ fuel lsda, emitLsda format fuel function = some lsda ∧ Describes function lsda := by
  by_cases none : function.selected = []
  · -- no calls, no table
    have noInvokes : function.invokes = [] := by
      have same := function.placed
      rw [none] at same
      exact map_eq_nil_iff.mp same.symm.eq_nil
    refine ⟨0, Option.none, by rw [emitLsda, none]; rfl, ?_, fun _ _ _ _ => rfl⟩
    intro invoke offset member
    rw [noInvokes] at member
    cases member
  · obtain ⟨callSites, actions, isTables, tables⟩ := emitTables_spec format function
    have someSelected : function.selected.isEmpty = false := isEmpty_eq_false_iff.mpr none
    have same := function.descendingTypeinfos_perm
    by_cases noTypes : descendingTypeinfos function.mod function.pads = []
    · obtain ⟨rest, header⟩ := @readHeader_empty format 0 callSites actions
      refine ⟨0, _, ?_, describes_of_read tables header ?_⟩
      · rw [emitLsda, someSelected]
        simp only [false_eq_true, if_false, isTables, bind_eq_bind, bind_some,
          sortedTypeinfos_eq, noTypes, isEmpty_nil, if_true]
      · intro pad isPad filters isFilters nonempty
        exact absurd noTypes (typeinfos_ne_nil isPad isFilters nonempty)
    · have notEmpty : (descendingTypeinfos function.mod function.pads).isEmpty = false :=
        isEmpty_eq_false_iff.mpr noTypes
      have stops : ¬ Swings (tablesSize callSites actions +
          (descendingTypeinfos function.mod function.pads).length * 4) := by
        intro swings
        rw [same.length_eq] at swings
        refine ends ⟨none, ?_, callSites, actions, isTables, swings⟩
        intro isEmpty
        rw [isEmpty] at same
        exact noTypes same.eq_nil
      obtain ⟨fuel, value, isValue⟩ := ttypeLoop_ends_iff.mpr stops
      obtain ⟨base, front, rest, header, relocs, isBase, tail, bytes⟩ :=
        @readHeader_types format value callSites actions _ noTypes (ttypeLoop_value isValue)
      refine ⟨fuel, _, ?_, describes_of_read tables header ?_⟩
      · rw [emitLsda, someSelected]
        simp only [false_eq_true, if_false, isTables, bind_eq_bind, bind_some,
          sortedTypeinfos_eq, notEmpty, isValue]
      · intro pad isPad filters isFilters nonempty
        exact readFilters isPad function.named isFilters nonempty relocs isBase bytes

/-- The emitter ends with a table that describes the function unless the size
of the distance swings. -/
theorem emitLsda_describes_iff (format : ObjectFormat) (function : EhFunction) :
    (∃ fuel lsda, emitLsda format fuel function = some lsda ∧ Describes function lsda) ↔
      ¬ function.SizeSwings format := by
  constructor
  · rintro ⟨fuel, lsda, isEmitted, -⟩ swings
    rw [emitLsda_of_sizeSwings swings fuel] at isEmitted
    cases isEmitted
  · exact emitLsda_of_not_sizeSwings

end Whole

section Repeated

/-- Actions that all have the filter of the only typeinfo. -/
def repeatedActions (first count : ℕ) : List MEhAction :=
  (List.range' first count).map fun index => ⟨index + 1, 1, index⟩

theorem pushActions_repeated (count : ℕ) (out : EhActions) :
    pushActions (replicate count 1) out.nextEhLabel out =
      (out.nextEhLabel + count,
        { out with
          nextEhLabel := out.nextEhLabel + count
          ehActions := out.ehActions ++ repeatedActions out.nextEhLabel count }) := by
  induction count generalizing out with
  | zero => simp [pushActions, repeatedActions]
  | succ count induction =>
    rw [List.replicate_succ, pushActions]
    have rest := induction
      { out with
        nextEhLabel := out.nextEhLabel + 1
        ehActions := out.ehActions ++ [⟨out.nextEhLabel + 1, 1, out.nextEhLabel⟩] }
    dsimp only at rest
    rw [rest, repeatedActions, repeatedActions, List.range'_succ, map_cons,
      List.append_assoc, singleton_append, Nat.add_assoc, Nat.add_comm 1 count]

theorem emitActions_repeated {count first : ℕ} {offsets : List (ℕ × ℕ)} {bytes : List UInt8}
    (positive : 0 < first + count) (length : bytes.length = 2 * first)
    (last : 0 < first → offsets.lookup first = some (2 * (first - 1))) :
    ∃ finalOffsets finalBytes,
      emitActions (repeatedActions first count) offsets bytes = some (finalOffsets, finalBytes) ∧
      finalBytes.length = 2 * (first + count) ∧
      finalOffsets.lookup (first + count) = some (2 * (first + count - 1)) := by
  induction count generalizing first offsets bytes with
  | zero => exact ⟨offsets, bytes, rfl, length, last positive⟩
  | succ count induction =>
    have one : (sleb 1).length = 1 := rfl
    rw [repeatedActions, List.range'_succ, map_cons, emitActions]
    dsimp only
    rw [show first + (count + 1) = first + 1 + count by omega]
    by_cases isFirst : first = 0
    · rw [if_neg (by simpa using isFirst)]
      apply induction (by omega)
      · rw [length_append, length_append, one, length]
        rfl
      · intro _
        rw [lookup_cons_self, length]
        rfl
    · rw [if_pos isFirst, lookup_cons, beq_false_of_ne (by omega), last (by omega)]
      dsimp only
      rw [length_append, one, length,
        show ((2 * (first - 1) : ℕ) : ℤ) - ((2 * first + 1 : ℕ) : ℤ) = -3 by omega]
      apply induction (by omega)
      · rw [length_append, length_append, one, length]
        rfl
      · intro _
        rw [lookup_cons_self]
        rfl

theorem typeinfoOrder_repeated {mod : EhModule} {count : ℕ}
    (clauses : (mod.ehLandingPadPayload 0).clauseTypeinfos = replicate (count + 1) 0) :
    typeinfoOrder mod [⟨1, 0⟩] = [0] := by
  have stays : ∀ count, (replicate count 0).foldl noteTypeinfo [0] = [0] := by
    intro count
    induction count with
    | zero => rfl
    | succ count induction =>
      rw [List.replicate_succ, foldl_cons]
      exact induction
  rw [typeinfoOrder, foldl_cons, foldl_nil, clauses, List.replicate_succ]
  exact stays count

/-- A call that unwinds to a pad with many clauses for one type. -/
def repeatedCall (count : ℕ) : Invoke := ⟨count + 1, count + 2, 1, 4⟩

def repeatedClauses (count : ℕ) : EhFunction where
  mod :=
    { ehLandingPadPayload := fun _ => { clauseTypeinfos := replicate (count + 1) 0 }
      targetSymbolName := fun _ => "_ZTIi" }
  pads := [⟨1, 0⟩]
  start := 0
  blocks := [[.code 4, .invoke (repeatedCall (count + 1))], [.code 4]]
  selected := [repeatedCall (count + 1)]
  placed := List.Perm.refl _
  sized := by simp [repeatedCall]
  labels := by simp [repeatedCall]
  padded := by simp [repeatedCall]
  onePad := by simp
  clauses := by simp
  prologue := by simp [codeSize, Piece.size]
  named := by simp

theorem build_repeated (count : ℕ) :
    ∃ out, build (repeatedClauses count).mod (repeatedClauses count).pads = some out ∧
      out.ehActions = repeatedActions 0 (count + 1) ∧ out.actionForBlock 1 = count + 1 := by
  have order : typeinfoOrder (repeatedClauses count).mod [⟨1, 0⟩] = [0] :=
    typeinfoOrder_repeated rfl
  have one : typeinfoFilterFor (repeatedClauses count).mod [⟨1, 0⟩] 0 = some 1 := by
    rw [typeinfoFilterFor, order]
    change some (filterAt _ _ 0) = some 1
    rw [filterAt, order]
    rfl
  have filters : padFilters (repeatedClauses count).mod [⟨1, 0⟩]
      ((repeatedClauses count).mod.ehLandingPadPayload 0) =
      some (replicate (count + 1) 1) := by
    have typed : (replicate (count + 1) 0).mapM
        (typeinfoFilterFor (repeatedClauses count).mod [⟨1, 0⟩]) =
        some (replicate (count + 1) 1) := by
      rw [mapM_eq_map (g := fun _ => 1) (by
        intro global member
        rw [eq_of_mem_replicate member]
        exact one), map_replicate]
    rw [padFilters]
    change Option.map _ (mapM _ (replicate (count + 1) 0)) = _
    rw [typed]
    simp [repeatedClauses]
  have pushed := pushActions_repeated (count + 1) {}
  simp only [Nat.zero_add, nil_append] at pushed
  refine ⟨
    { nextEhLabel := count + 1
      ehActions := repeatedActions 0 (count + 1)
      actionsByPayload := [(0, count + 1)]
      actionsByBlock := [(1, count + 1)] }, ?_, rfl, rfl⟩
  · change [(⟨1, 0⟩ : LandingPad)].foldlM (buildPad _ [⟨1, 0⟩]) {} = _
    rw [foldlM_cons, buildPad, actionForLandingPad]
    simp only [lookup_nil, filters, map_some, List.reverse_replicate, pushed]
    rfl

theorem ehTypeinfos_repeated (count : ℕ) :
    (ehTypeinfos (repeatedClauses count).mod (repeatedClauses count).pads).length = 1 := by
  have order : typeinfoOrder (repeatedClauses count).mod (repeatedClauses count).pads = [0] :=
    typeinfoOrder_repeated rfl
  rw [ehTypeinfos, length_append, length_mapIdx, order]
  rfl

end Repeated

/-- With this many clauses the tables have the size for which the loop never
ends. -/
theorem repeatedClauses_not_described :
    ¬ ∃ fuel lsda, emitLsda .elf fuel (repeatedClauses 8180) = some lsda ∧
      Describes (repeatedClauses 8180) lsda := by
  rintro ⟨fuel, lsda, isEmitted, -⟩
  obtain ⟨out, isBuilt, isActions, isAction⟩ := build_repeated 8180
  obtain ⟨offsets, actions, isTable, length, lookup⟩ :=
    @emitActions_repeated 8181 0 [] [] (by omega) rfl (fun positive => absurd positive (by omega))
  have action : resolveAction offsets (out.actionForBlock 1) = some 16361 := by
    rw [isAction, resolveAction, if_neg (by omega), lookup]
    rfl
  have sites : ((repeatedClauses 8180).ehCallSites out).mapM
      (resolveSite .elf (ehLabelOffsets (repeatedClauses 8180).invokes)
        (blockOffset (repeatedClauses 8180).start (repeatedClauses 8180).blocks) offsets) =
      some [⟨4, 8, 8, 16361⟩] := by
    rw [EhFunction.ehCallSites, mapM_map]
    change mapM _ [repeatedCall 8181] = _
    rw [mapM_cons]
    simp only [comp, resolveSite, repeatedCall, action]
    rfl
  have tables : emitTables .elf (repeatedClauses 8180) =
      some (appendRange 0 4 0 0 ++ (appendRange 4 8 8 16361 ++ appendRange 8 12 0 0), actions) := by
    rw [emitTables, isBuilt]
    simp only [bind_eq_bind, bind_some, isActions, isTable, sites, sortedSites, mergeSort_singleton]
    rfl
  have size : tablesSize (appendRange 0 4 0 0 ++ (appendRange 4 8 8 16361 ++ appendRange 8 12 0 0))
      actions = 16376 := by
    rw [tablesSize, length]
    decide
  have types := ehTypeinfos_repeated 8180
  rw [emitLsda_of_sizeSwings] at isEmitted
  · cases isEmitted
  · refine ⟨cons_ne_nil _ _, ?_, _, _, tables, 2, rfl, ?_, ?_⟩
    · intro isEmpty
      rw [isEmpty] at types
      cases types
    · rw [size, types]
      decide
    · rw [size, types]
      decide

end Aburi.Backend.Eh
