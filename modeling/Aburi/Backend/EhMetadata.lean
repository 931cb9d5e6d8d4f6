import Mathlib.Data.Int.Notation
import Mathlib.Data.List.Basic
import Mathlib.Order.Nat

/-!
# Exception metadata of a function

The builder numbers the typeinfos of all landing pads and chains the clauses of
each pad from the last to the first.
-/

namespace Aburi.Backend.Eh

open List

structure EhLandingPadPayload where
  isCleanup : Bool := false
  hasCatchAll : Bool := false
  clauseTypeinfos : List ℕ := []
  deriving DecidableEq

/-- What the builder reads of a module. -/
structure EhModule where
  ehLandingPadPayload : ℕ → EhLandingPadPayload
  targetSymbolName : ℕ → String

structure MEhAction where
  label : ℕ
  filter : ℤ
  nextLabel : ℕ
  deriving DecidableEq

structure MEhTypeInfo where
  filter : ℕ
  symbol : String
  deriving DecidableEq

/-- A landing pad with its block. -/
structure LandingPad where
  block : ℕ
  payload : ℕ
  deriving DecidableEq

def noteTypeinfo (order : List ℕ) (global : ℕ) : List ℕ :=
  if global ∈ order then order else order ++ [global]

/-- The typeinfos of all pads in the order of their first clause. -/
def typeinfoOrder (mod : EhModule) (pads : List LandingPad) : List ℕ :=
  pads.foldl
    (fun order pad => (mod.ehLandingPadPayload pad.payload).clauseTypeinfos.foldl noteTypeinfo order)
    []

def hasCatchAll (mod : EhModule) (pads : List LandingPad) : Bool :=
  pads.any fun pad => (mod.ehLandingPadPayload pad.payload).hasCatchAll

def filterBase (mod : EhModule) (pads : List LandingPad) : ℕ :=
  if hasCatchAll mod pads then 1 else 0

/-- The filter of the typeinfo at a place of the order. -/
def filterAt (mod : EhModule) (pads : List LandingPad) (index : ℕ) : ℕ :=
  filterBase mod pads + (typeinfoOrder mod pads).length - index

def ehTypeinfos (mod : EhModule) (pads : List LandingPad) : List MEhTypeInfo :=
  (if hasCatchAll mod pads then [⟨1, ""⟩] else []) ++
    (typeinfoOrder mod pads).mapIdx fun index global =>
      ⟨filterAt mod pads index, mod.targetSymbolName global⟩

def typeinfoFilterFor (mod : EhModule) (pads : List LandingPad) (global : ℕ) : Option ℕ :=
  ((typeinfoOrder mod pads).findIdx? fun other => other == global).map (filterAt mod pads)

/-- The filters of a pad in the order of its clauses. -/
def padFilters (mod : EhModule) (pads : List LandingPad) (payload : EhLandingPadPayload) :
    Option (List ℤ) :=
  (payload.clauseTypeinfos.mapM (typeinfoFilterFor mod pads)).map fun typed =>
    let filters := typed.map Int.ofNat ++ if payload.hasCatchAll then [1] else []
    if payload.isCleanup && !filters.isEmpty then filters ++ [0] else filters

/-- The labels and actions that the builder makes. -/
structure EhActions where
  nextEhLabel : ℕ := 0
  ehActions : List MEhAction := []
  actionsByPayload : List (ℕ × ℕ) := []
  actionsByBlock : List (ℕ × ℕ) := []

/-- Pushes the actions for filters that are given from the last to the first,
and gives the label of the first. -/
def pushActions : List ℤ → ℕ → EhActions → ℕ × EhActions
  | [], nextLabel, out => (nextLabel, out)
  | filter :: filters, nextLabel, out =>
    let label := out.nextEhLabel + 1
    pushActions filters label
      { out with nextEhLabel := label, ehActions := out.ehActions ++ [⟨label, filter, nextLabel⟩] }

def actionForLandingPad (mod : EhModule) (pads : List LandingPad) (out : EhActions)
    (payloadIndex : ℕ) : Option (ℕ × EhActions) :=
  match out.actionsByPayload.lookup payloadIndex with
  | some label => some (label, out)
  | none =>
    (padFilters mod pads (mod.ehLandingPadPayload payloadIndex)).map fun filters =>
      let (firstLabel, out) := pushActions filters.reverse 0 out
      (firstLabel,
        { out with actionsByPayload := (payloadIndex, firstLabel) :: out.actionsByPayload })

def buildPad (mod : EhModule) (pads : List LandingPad) (out : EhActions) (pad : LandingPad) :
    Option EhActions :=
  (actionForLandingPad mod pads out pad.payload).map fun (label, out) =>
    { out with actionsByBlock := (pad.block, label) :: out.actionsByBlock }

def build (mod : EhModule) (pads : List LandingPad) : Option EhActions :=
  pads.foldlM (buildPad mod pads) {}

def EhActions.actionForBlock (out : EhActions) (block : ℕ) : ℕ :=
  (out.actionsByBlock.lookup block).getD 0

theorem mem_noteTypeinfo {order : List ℕ} {global other : ℕ} :
    other ∈ noteTypeinfo order global ↔ other ∈ order ∨ other = global := by
  rw [noteTypeinfo]
  split
  case isTrue member =>
    constructor
    · exact .inl
    · rintro (old | rfl)
      · exact old
      · exact member
  case isFalse => simp

theorem mem_foldl_noteTypeinfo {order globals : List ℕ} {global : ℕ} :
    global ∈ globals.foldl noteTypeinfo order ↔ global ∈ order ∨ global ∈ globals := by
  induction globals generalizing order with
  | nil => simp
  | cons first globals induction =>
    rw [foldl_cons, induction, mem_noteTypeinfo, mem_cons, or_assoc]

section Orders

variable (mod : EhModule) (pads : List LandingPad)

variable {mod pads}

section

variable {pad : LandingPad} (isPad : pad ∈ pads) {global : ℕ}
  (clause : global ∈ (mod.ehLandingPadPayload pad.payload).clauseTypeinfos)
include isPad clause

theorem mem_typeinfoOrder :
    global ∈ typeinfoOrder mod pads := by
  suffices all : ∀ (rest : List LandingPad) (order : List ℕ),
      pad ∈ rest ∨ global ∈ order →
      global ∈ rest.foldl (fun order pad =>
        (mod.ehLandingPadPayload pad.payload).clauseTypeinfos.foldl noteTypeinfo order)
        order from all pads [] (.inl isPad)
  intro rest
  induction rest with
  | nil =>
    rintro order (absent | member)
    · cases absent
    · exact member
  | cons first rest induction =>
    intro order given
    apply induction
    rcases given with member | member
    · rcases mem_cons.mp member with rfl | later
      · exact .inr (mem_foldl_noteTypeinfo.2 (.inr clause))
      · exact .inl later
    · exact .inr (mem_foldl_noteTypeinfo.2 (.inl member))

theorem typeinfoFilterFor_eq :
    ∃ index, (typeinfoOrder mod pads)[index]? = some global ∧
      typeinfoFilterFor mod pads global = some (filterAt mod pads index) := by
  have member := mem_typeinfoOrder isPad clause
  cases found : (typeinfoOrder mod pads).findIdx? fun other => other == global with
  | none =>
    rw [findIdx?_eq_none_iff] at found
    have absent := found global member
    rw [beq_self_eq_true] at absent
    cases absent
  | some index =>
    obtain ⟨small, same, -⟩ := findIdx?_eq_some_iff_getElem.mp found
    refine ⟨index, ?_, ?_⟩
    · rw [List.getElem?_eq_getElem small, beq_iff_eq.mp same]
    · rw [typeinfoFilterFor, found]
      rfl

end

end Orders

/-- A label from which the actions list filters. -/
def Chain (actions : List MEhAction) : ℕ → List ℤ → Prop
  | label, [] => label = 0
  | label, filter :: filters =>
    ∃ nextLabel, ⟨label, filter, nextLabel⟩ ∈ actions ∧ Chain actions nextLabel filters

theorem Chain.mono {actions more : List MEhAction} (subset : actions ⊆ more) {label : ℕ}
    {filters : List ℤ} (chain : Chain actions label filters) : Chain more label filters := by
  induction filters generalizing label with
  | nil => exact chain
  | cons filter filters induction =>
    obtain ⟨nextLabel, member, rest⟩ := chain
    exact ⟨nextLabel, subset member, induction rest⟩

/-- Labels count the actions, and an action refers back. -/
structure Linked (out : EhActions) : Prop where
  count : out.nextEhLabel = out.ehActions.length
  label : ∀ index (action : MEhAction), out.ehActions[index]? = some action →
    action.label = index + 1 ∧ action.nextLabel ≤ index

theorem pushActions_chain {filters : List ℤ} {nextLabel : ℕ} {out : EhActions}
    {tail : List ℤ} (linked : Linked out) (chain : Chain out.ehActions nextLabel tail)
    (known : nextLabel ≤ out.ehActions.length) :
    Linked (pushActions filters nextLabel out).2 ∧
      Chain (pushActions filters nextLabel out).2.ehActions (pushActions filters nextLabel out).1
        (filters.reverse ++ tail) ∧
      out.ehActions ⊆ (pushActions filters nextLabel out).2.ehActions ∧
      (pushActions filters nextLabel out).2.actionsByPayload = out.actionsByPayload ∧
      (pushActions filters nextLabel out).2.actionsByBlock = out.actionsByBlock := by
  induction filters generalizing nextLabel out tail with
  | nil => exact ⟨linked, chain, fun _ member => member, rfl, rfl⟩
  | cons filter filters induction =>
    rw [pushActions]
    have subset : out.ehActions ⊆ out.ehActions ++ [⟨out.nextEhLabel + 1, filter, nextLabel⟩] :=
      subset_append_left _ _
    have nowLinked : Linked
        { out with
          nextEhLabel := out.nextEhLabel + 1
          ehActions := out.ehActions ++ [⟨out.nextEhLabel + 1, filter, nextLabel⟩] } := by
      constructor
      · simp [linked.count]
      · intro index action isAction
        dsimp only at isAction
        rcases Nat.lt_or_ge index out.ehActions.length with small | large
        · rw [getElem?_append_left small] at isAction
          exact linked.label index action isAction
        · rw [getElem?_append_right large] at isAction
          obtain ⟨isZero, same⟩ := List.getElem?_eq_some_iff.mp isAction
          rw [length_singleton] at isZero
          simp only [getElem_singleton] at same
          subst same
          dsimp only
          rw [linked.count]
          omega
    have nowChain : Chain (out.ehActions ++ [⟨out.nextEhLabel + 1, filter, nextLabel⟩])
        (out.nextEhLabel + 1) (filter :: tail) :=
      ⟨nextLabel, mem_append_right _ mem_cons_self, chain.mono subset⟩
    obtain ⟨isLinked, isChain, isSubset, payloads, blocks⟩ := induction nowLinked nowChain (by
      rw [length_append, linked.count]
      exact Nat.le_refl _)
    refine ⟨isLinked, ?_, fun _ member => isSubset (subset member), payloads, blocks⟩
    rwa [reverse_cons, List.append_assoc, singleton_append]

section Build

variable {mod : EhModule} {pads : List LandingPad}

/-- What the builder has when some pads are done. -/
structure Built (mod : EhModule) (pads : List LandingPad) (done : List LandingPad)
    (out : EhActions) : Prop where
  linked : Linked out
  payloads : ∀ entry ∈ out.actionsByPayload, ∃ filters,
    padFilters mod pads (mod.ehLandingPadPayload entry.1) = some filters ∧
      Chain out.ehActions entry.2 filters
  blocks : ∀ pad ∈ done, (done.map LandingPad.block).Nodup → ∃ filters,
    padFilters mod pads (mod.ehLandingPadPayload pad.payload) = some filters ∧
      Chain out.ehActions (out.actionForBlock pad.block) filters

theorem padFilters_isSome {pad : LandingPad} (isPad : pad ∈ pads) :
    ∃ filters, padFilters mod pads (mod.ehLandingPadPayload pad.payload) = some filters := by
  have typed : ∀ globals : List ℕ,
      (∀ global ∈ globals, global ∈ (mod.ehLandingPadPayload pad.payload).clauseTypeinfos) →
      ∃ filters, globals.mapM (typeinfoFilterFor mod pads) = some filters := by
    intro globals
    induction globals with
    | nil => exact fun _ => ⟨[], rfl⟩
    | cons global globals induction =>
      intro clauses
      obtain ⟨index, _, isFilter⟩ := typeinfoFilterFor_eq isPad (clauses global mem_cons_self)
      obtain ⟨filters, isFilters⟩ :=
        induction fun other member => clauses other (mem_cons_of_mem _ member)
      refine ⟨filterAt mod pads index :: filters, ?_⟩
      rw [mapM_cons, isFilter, isFilters]
      rfl
  obtain ⟨filters, isFilters⟩ := typed _ fun _ member => member
  rw [padFilters, isFilters]
  exact ⟨_, rfl⟩

theorem Built.pad {done : List LandingPad} {out : EhActions} {pad : LandingPad}
    (built : Built mod pads done out) (isPad : pad ∈ pads) :
    ∃ after, buildPad mod pads out pad = some after ∧ Built mod pads (done ++ [pad]) after := by
  -- the label for the pad, memoised or fresh
  have action : ∃ label after filters,
      actionForLandingPad mod pads out pad.payload = some (label, after) ∧
      padFilters mod pads (mod.ehLandingPadPayload pad.payload) = some filters ∧
      Chain after.ehActions label filters ∧ out.ehActions ⊆ after.ehActions ∧ Linked after ∧
      after.actionsByBlock = out.actionsByBlock ∧
      ∀ entry ∈ after.actionsByPayload, ∃ filters,
        padFilters mod pads (mod.ehLandingPadPayload entry.1) = some filters ∧
          Chain after.ehActions entry.2 filters := by
    rw [actionForLandingPad]
    cases known : out.actionsByPayload.lookup pad.payload with
    | some label =>
      obtain ⟨newer, older, isList, -⟩ := lookup_eq_some_iff.mp known
      obtain ⟨filters, isFilters, chain⟩ := built.payloads (pad.payload, label) (by
        rw [isList]
        exact mem_append_right _ mem_cons_self)
      exact ⟨label, out, filters, rfl, isFilters, chain, fun _ member => member, built.linked,
        rfl, built.payloads⟩
    | none =>
      obtain ⟨filters, isFilters⟩ := @padFilters_isSome mod pads pad isPad
      have none : Chain out.ehActions 0 [] := rfl
      obtain ⟨linked, chain, subset, payloads, blocks⟩ :=
        @pushActions_chain filters.reverse 0 out [] built.linked none (Nat.zero_le _)
      rw [reverse_reverse, append_nil] at chain
      rw [isFilters]
      refine ⟨_, _, filters, rfl, rfl, chain, subset, ⟨linked.count, linked.label⟩, blocks, ?_⟩
      intro entry member
      rcases mem_cons.mp member with rfl | older
      · exact ⟨filters, isFilters, chain⟩
      · rw [payloads] at older
        obtain ⟨olderFilters, isOlder, olderChain⟩ := built.payloads entry older
        exact ⟨olderFilters, isOlder, olderChain.mono subset⟩
  obtain ⟨label, after, filters, isAction, isFilters, chain, subset, linked, blocks, payloads⟩ :=
    action
  rw [buildPad, isAction]
  refine ⟨_, rfl, ⟨linked.count, linked.label⟩, payloads, ?_⟩
  intro other member nodup
  rw [EhActions.actionForBlock]
  dsimp only
  rw [map_append, map_singleton] at nodup
  rcases mem_append.mp member with older | new
  · have differs : other.block ≠ pad.block := by
      intro same
      exact (nodup_append.mp nodup).2.2 other.block (List.mem_map_of_mem older) pad.block
        mem_cons_self same
    rw [lookup_cons, beq_false_of_ne differs]
    obtain ⟨olderFilters, isOlder, olderChain⟩ := built.blocks other older (nodup_append.mp nodup).1
    refine ⟨olderFilters, isOlder, ?_⟩
    rw [blocks]
    exact olderChain.mono subset
  · rw [mem_singleton.mp new, lookup_cons_self]
    exact ⟨filters, isFilters, chain⟩

/-- The builder succeeds, and every pad's action lists its filters. -/
theorem build_spec (distinct : (pads.map LandingPad.block).Nodup) :
    ∃ out, build mod pads = some out ∧ Linked out ∧
      ∀ pad ∈ pads, ∃ filters,
        padFilters mod pads (mod.ehLandingPadPayload pad.payload) = some filters ∧
          Chain out.ehActions (out.actionForBlock pad.block) filters := by
  suffices all : ∀ (rest done : List LandingPad) (out : EhActions),
      done ++ rest = pads → Built mod pads done out →
      ∃ final, rest.foldlM (buildPad mod pads) out = some final ∧ Built mod pads pads final by
    obtain ⟨out, isBuilt, built⟩ := all pads [] {} rfl ⟨⟨rfl, by simp⟩, by simp, by simp⟩
    exact ⟨out, isBuilt, built.linked, fun pad member => built.blocks pad member distinct⟩
  intro rest
  induction rest with
  | nil =>
    intro done out isAll built
    rw [append_nil] at isAll
    exact ⟨out, rfl, isAll ▸ built⟩
  | cons pad rest induction =>
    intro done out isAll built
    have isPad : pad ∈ pads := by
      rw [← isAll]
      exact mem_append_right _ mem_cons_self
    obtain ⟨after, isAfter, nowBuilt⟩ := built.pad isPad
    obtain ⟨final, isFinal, allBuilt⟩ := induction (done ++ [pad]) after (by simpa using isAll)
      nowBuilt
    refine ⟨final, ?_, allBuilt⟩
    rw [foldlM_cons, isAfter]
    exact isFinal

end Build

end Aburi.Backend.Eh
