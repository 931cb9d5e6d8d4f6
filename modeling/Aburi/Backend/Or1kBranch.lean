import Aburi.Air.InstSimplify
import Aburi.Backend.EdgeStoresSound

/-!
# Conditional branches on or1k

The selector compares, stores the arguments of the first edge, branches when
the flag is set, stores the arguments of the second edge and jumps.  The stores
of the first edge stand in front of the branch, so they run for both edges.
-/

namespace Aburi.Backend.Or1k

open Aburi.Air List Option Function

/-- Comparisons set the flag, `bf` branches when it is set.  Loads, stores and
the code that builds a constant leave it alone. -/
inductive BranchInst where
  | edge (inst : EdgeInst)
  | setFlag (cond : IntCond) (left right : ℕ)
  | setFlagNonZero (vreg : ℕ)
  | bf (target : BlockId)
  | jump (target : BlockId)
  deriving DecidableEq

section Selection

variable (frame : SelectedFrame)

/-- A condition that another block computed with `icmp` is compared again. -/
def fusedCompare (sel : Selector) (cond : ValueId) : Option (IntCond × ValueId × ValueId) :=
  let value := frame.function.value cond
  if value.kind = .instResult ∧ sel.blockValues cond = none then
    let cmp := frame.function.inst (Function.payloadIndex value)
    if cmp.op = .icmp then
      some ((icmpCond cmp.aux).getD .eq, cmp.operands.getD 0 0, cmp.operands.getD 1 0)
    else none
  else none

/-- The comparison in front of a branch, after the loads of its operands. -/
def emitCondition (cond : ValueId) (sel : Selector) : Option (BranchInst × Selector) :=
  match fusedCompare frame sel cond with
  | some (op, a, b) =>
    (useReg .or1k frame a sel).bind fun (left, sel) =>
      (useReg .or1k frame b sel).map fun (right, sel) => (.setFlag op left right, sel)
  | none => (useReg .or1k frame cond sel).map fun (vreg, sel) => (.setFlagNonZero vreg, sel)

def edgeTarget (call : BlockCallId) : BlockId := (frame.function.blockCall call).target

def Selector.flush (sel : Selector) : Selector := { sel with code := [] }

/-- The branch of `select_terminator`, for a selector that has not emitted
anything since the instruction before. -/
def selectBrIf (cond : ValueId) (thenCall elseCall : BlockCallId) (sel : Selector) :
    Option (List BranchInst) :=
  (emitCondition frame cond sel).bind fun (compare, loaded) =>
    (emitEdgeStores .or1k frame thenCall (Selector.flush loaded)).bind fun thenSel =>
      (emitEdgeStores .or1k frame elseCall (Selector.flush thenSel)).map fun elseSel =>
        loaded.code.map .edge ++ compare :: (thenSel.code.map .edge ++
          .bf (edgeTarget frame thenCall) :: (elseSel.code.map .edge ++
            [.jump (edgeTarget frame elseCall)]))

end Selection

def EdgeInst.writes : EdgeInst → List ℕ
  | .store _ slot | .storeHalf _ slot _ | .popF80 slot => [slot]
  | _ => []

/-- The machine with its flag and the slots stored to so far. -/
structure BranchState where
  machine : EdgeMachine
  flag : Bool
  written : List ℕ

section Running

variable (env : ValueId → Val) (objects : ℕ → Val)

def compareWords (cond : IntCond) (left right : Val) : Bool :=
  evalCond cond (left.setWidth 32) (right.setWidth 32)

def isNonZeroWord (value : Val) : Bool := value.setWidth 32 != 0

def runBranch : List BranchInst → BranchState → Option (BlockId × BranchState)
  | [], _ => none
  | .edge inst :: rest, state =>
    runBranch rest { state with
      machine := runEdgeInst env objects state.machine inst
      written := state.written ++ EdgeInst.writes inst }
  | .setFlag cond left right :: rest, state =>
    runBranch rest { state with
      flag := compareWords cond (state.machine.vregs left) (state.machine.vregs right) }
  | .setFlagNonZero vreg :: rest, state =>
    runBranch rest { state with flag := isNonZeroWord (state.machine.vregs vreg) }
  | .bf target :: rest, state => if state.flag then some (target, state) else runBranch rest state
  | .jump target :: _, state => some (target, state)

/-- The value the selected code works with: the cached register, the address
of the allocation, the slot, or what is built. -/
def valueIn (frame : SelectedFrame) (sel : Selector) (machine : EdgeMachine) (v : ValueId) : Val :=
  match sel.blockValues v, frame.frameAddrs v, frame.slots v with
  | some vreg, _, _ => machine.vregs vreg
  | none, some object, _ => objects object
  | none, none, some slot => machine.slots slot
  | none, none, none => env v

/-- The value of the condition in front of a branch. -/
def conditionHolds (frame : SelectedFrame) (sel : Selector) (machine : EdgeMachine)
    (cond : ValueId) : Bool :=
  match fusedCompare frame sel cond with
  | some (op, a, b) =>
    compareWords op (valueIn env objects frame sel machine a)
      (valueIn env objects frame sel machine b)
  | none => isNonZeroWord (valueIn env objects frame sel machine cond)

end Running

/-- The slots of a target's parameters are written only on the way to it, and
a target that is not reached keeps the values of its parameters. -/
structure TouchesOnlyTaken (frame : SelectedFrame) (thenCall elseCall : BlockCallId)
    (taken : Bool) (before : EdgeMachine) (after : BranchState) : Prop where
  thenSlots : ∀ param ∈ frame.function.blockParams (edgeTarget frame thenCall), ∀ slot,
    frame.slots param = some slot → slot ∈ after.written → taken = true
  elseSlots : ∀ param ∈ frame.function.blockParams (edgeTarget frame elseCall), ∀ slot,
    frame.slots param = some slot → slot ∈ after.written → taken = false
  keeps : ∀ param ∈ frame.function.blockParams
      (edgeTarget frame (if taken then elseCall else thenCall)), ∀ slot,
    frame.slots param = some slot → after.machine.slots slot = before.slots slot

section Frame

variable {env : ValueId → Val} {objects : ℕ → Val}

theorem runEdgeInst_slots_of_notMem {inst : EdgeInst} {slot : ℕ} (machine : EdgeMachine)
    (notWritten : slot ∉ EdgeInst.writes inst) :
    (runEdgeInst env objects machine inst).slots slot = machine.slots slot := by
  cases inst with
  | store | storeHalf | popF80 =>
    exact update_of_ne (ne_of_not_mem_cons notWritten) _ _
  | load | frameAddr | build | loadHalf | buildHalf | pushF80 | pushConstF80 => rfl

attribute [local grind =] runBranch

theorem runBranch_slots {code : List BranchInst} :
    ∀ {state after : BranchState} {target : BlockId},
      runBranch env objects code state = some (target, after) →
      state.written ⊆ after.written ∧
        ∀ slot ∉ after.written, after.machine.slots slot = state.machine.slots slot := by
  induction code with
  | nil =>
    intro state after target ran
    cases ran
  | cons inst rest ih =>
    intro state after target ran
    cases inst with
    | edge inst =>
      obtain ⟨more, same⟩ := ih ran
      refine ⟨fun slot mem => more (mem_append_left _ mem), ?_⟩
      intro slot notWritten
      have notHere : slot ∉ EdgeInst.writes inst :=
        fun mem => notWritten (more (mem_append_right _ mem))
      exact (same slot notWritten).trans (runEdgeInst_slots_of_notMem _ notHere)
    | setFlag | setFlagNonZero =>
      rw [runBranch] at ran
      obtain ⟨more, same⟩ := ih ran
      exact ⟨more, same⟩
    | bf =>
      rw [runBranch] at ran
      split at ran
      · cases ran
        exact ⟨fun _ mem => mem, fun _ _ => rfl⟩
      · exact ih ran
    | jump =>
      cases ran
      exact ⟨fun _ mem => mem, fun _ _ => rfl⟩

theorem runBranch_edges (code : List EdgeInst) (rest : List BranchInst) :
    ∀ state : BranchState, runBranch env objects (code.map .edge ++ rest) state =
      runBranch env objects rest
        ⟨runEdge env objects code state.machine, state.flag,
          state.written ++ code.flatMap EdgeInst.writes⟩ := by
  induction code with
  | nil =>
    intro state
    simp [runEdge]
  | cons inst code ih =>
    intro state
    have step := ih { state with
      machine := runEdgeInst env objects state.machine inst
      written := state.written ++ EdgeInst.writes inst }
    simpa [runBranch, runEdge] using step

end Frame

section Operands

variable {frame : SelectedFrame}

/-- What a load has done: nothing was stored, every value is still where the
selected code looks for it, and the registers in use are left alone. -/
structure Loads (frame : SelectedFrame) (env : ValueId → Val) (objects : ℕ → Val)
    (sel sel' : Selector) (new : List EdgeInst) : Prop where
  code : sel'.code = sel.code ++ new
  writes : new.flatMap EdgeInst.writes = []
  more : sel.nextVreg ≤ sel'.nextVreg
  bounded : ∀ v vreg, sel'.blockValues v = some vreg → vreg < sel'.nextVreg
  slots : ∀ machine, (runEdge env objects new machine).slots = machine.slots
  vregs : ∀ machine, ∀ vreg < sel.nextVreg,
    (runEdge env objects new machine).vregs vreg = machine.vregs vreg
  values : ∀ machine v, valueIn env objects frame sel' (runEdge env objects new machine) v =
    valueIn env objects frame sel machine v

section

variable {env : ValueId → Val} {objects : ℕ → Val} {sel : Selector}

theorem Loads.nothing (bounded : ∀ v vreg, sel.blockValues v = some vreg → vreg < sel.nextVreg) :
    Loads frame env objects sel sel [] :=
  ⟨(append_nil _).symm, rfl, Nat.le_refl _, bounded, fun _ => rfl, fun _ _ _ => rfl,
    fun _ _ => rfl⟩

theorem Loads.cacheNew {v : ValueId} {inst : ℕ → EdgeInst}
    (bounded : ∀ v vreg, sel.blockValues v = some vreg → vreg < sel.nextVreg)
    (uncached : sel.blockValues v = none) (noWrites : EdgeInst.writes (inst sel.nextVreg) = [])
    (sets : ∀ machine, runEdgeInst env objects machine (inst sel.nextVreg) =
      machine.setReg sel.nextVreg (valueIn env objects frame sel machine v)) :
    Loads frame env objects sel (sel.cacheNew v inst).2 [inst sel.nextVreg] := by
  have run : ∀ machine, runEdge env objects [inst sel.nextVreg] machine =
      machine.setReg sel.nextVreg (valueIn env objects frame sel machine v) := sets
  have others : ∀ machine : EdgeMachine, ∀ vreg < sel.nextVreg,
      (runEdge env objects [inst sel.nextVreg] machine).vregs vreg = machine.vregs vreg := by
    intro machine vreg below
    rw [run]
    exact update_of_ne (Nat.ne_of_lt below) _ _
  refine ⟨rfl, by simp [noWrites], Nat.le_succ _, ?_, ?_, others, ?_⟩
  · intro w vreg cached
    by_cases isV : w = v
    · subst isV
      have isNew : sel.nextVreg = vreg := by simpa [Selector.cacheNew] using cached
      exact isNew ▸ Nat.lt_succ_self _
    · have old : sel.blockValues w = some vreg := by
        simpa [Selector.cacheNew, update_of_ne isV] using cached
      exact Nat.lt_succ_of_lt (bounded w vreg old)
  · intro machine
    rw [run]
    rfl
  · intro machine w
    by_cases isV : w = v
    · subst isV
      have isNew : (sel.cacheNew w inst).2.blockValues w = some sel.nextVreg := by
        simp [Selector.cacheNew]
      rw [valueIn, isNew, run]
      exact update_self _ _ _
    · have old : (sel.cacheNew v inst).2.blockValues w = sel.blockValues w :=
        update_of_ne isV _ _
      have sameSlots : (runEdge env objects [inst sel.nextVreg] machine).slots = machine.slots := by
        rw [run]
        rfl
      rw [valueIn, valueIn, old, sameSlots]
      split
      case h_1 vreg cached => exact others machine vreg (bounded w vreg cached)
      all_goals rfl

end

theorem useReg_loads (env : ValueId → Val) (objects : ℕ → Val) {sel sel' : Selector}
    {v : ValueId} {vreg : ℕ}
    (bounded : ∀ v vreg, sel.blockValues v = some vreg → vreg < sel.nextVreg)
    (used : useReg .or1k frame v sel = some (vreg, sel')) :
    ∃ new, Loads frame env objects sel sel' new ∧ sel'.blockValues v = some vreg := by
  have isNew : ∀ {inst : ℕ → EdgeInst}, sel.cacheNew v inst = (vreg, sel') →
      sel.blockValues v = none → EdgeInst.writes (inst sel.nextVreg) = [] →
      (∀ machine, runEdgeInst env objects machine (inst sel.nextVreg) =
        machine.setReg sel.nextVreg (valueIn env objects frame sel machine v)) →
      ∃ new, Loads frame env objects sel sel' new ∧ sel'.blockValues v = some vreg := by
    intro inst isCache uncached noWrites sets
    obtain rfl : (sel.cacheNew v inst).1 = vreg := by rw [isCache]
    obtain rfl : (sel.cacheNew v inst).2 = sel' := by rw [isCache]
    exact ⟨_, .cacheNew bounded uncached noWrites sets, by simp [Selector.cacheNew]⟩
  rw [useReg] at used
  split at used
  case h_1 cachedReg cached =>
    cases used
    exact ⟨[], Loads.nothing bounded, cached⟩
  case h_2 uncached =>
    split at used
    case h_1 object isObject =>
      refine isNew (Option.some.inj used) uncached rfl ?_
      intro machine
      rw [valueIn, uncached, isObject]
      rfl
    case h_2 noObject =>
      -- what is built has no slot
      have built : isComputed frame.function v = false →
          ∀ machine, valueIn env objects frame sel machine v = env v := by
        intro notComputed machine
        have noSlot : frame.slots v = none := by
          cases isSlot : frame.slots v with
          | none => rfl
          | some slot =>
            exact absurd (frame.slotsComputed v slot isSlot) (by rw [notComputed]; decide)
        rw [valueIn, uncached, noObject, noSlot]
      split at used
      · cases used
      split at used
      case h_3 kind => cases used
      case h_4 kind notParam notFloat =>
        have notComputed : isComputed frame.function v = false := by
          rw [isComputed]
          split <;> simp_all
        refine isNew (Option.some.inj used) uncached rfl ?_
        intro machine
        rw [built notComputed]
        rfl
      all_goals
        obtain ⟨slot, isSlot, isCache⟩ := map_eq_some_iff.mp used
        refine isNew isCache uncached rfl ?_
        intro machine
        rw [valueIn, uncached, noObject, isSlot]
        rfl

/-- The code in front of the comparison and the comparison leave the value of
the condition in the flag. -/
theorem emitCondition_sets (env : ValueId → Val) (objects : ℕ → Val) {sel loaded : Selector}
    {cond : ValueId} {compare : BranchInst}
    (starts : sel.Starts sel) (emitted : emitCondition frame cond sel = some (compare, loaded)) :
    loaded.code.flatMap EdgeInst.writes = [] ∧
      ∀ machine flag written rest,
        runBranch env objects (compare :: rest)
            ⟨runEdge env objects loaded.code machine, flag, written⟩ =
          runBranch env objects rest ⟨runEdge env objects loaded.code machine,
            conditionHolds env objects frame sel machine cond, written⟩ := by
  rw [emitCondition] at emitted
  split at emitted
  case h_1 op a b isFused =>
    obtain ⟨⟨left, sel₁⟩, usedLeft, more⟩ := bind_eq_some_iff.mp emitted
    obtain ⟨⟨right, sel₂⟩, usedRight, found⟩ := map_eq_some_iff.mp more
    cases found
    obtain ⟨first, loadsLeft, isLeft⟩ := useReg_loads env objects
      starts.bounded usedLeft
    obtain ⟨second, loadsRight, isRight⟩ := useReg_loads env objects
      loadsLeft.bounded usedRight
    have code : loaded.code = first ++ second := by
      rw [loadsRight.code, loadsLeft.code, starts.code, nil_append]
    refine ⟨by simp [code, loadsLeft.writes, loadsRight.writes], ?_⟩
    intro machine flag written rest
    rw [runBranch, conditionHolds, isFused, code, runEdge_append]
    have valueLeft := loadsLeft.values machine a
    have valueRight := loadsRight.values (runEdge env objects first machine) b
    rw [loadsLeft.values] at valueRight
    rw [valueIn, isLeft] at valueLeft
    rw [valueIn, isRight] at valueRight
    have kept := loadsRight.vregs (runEdge env objects first machine) left
      (loadsLeft.bounded a left isLeft)
    simp only [kept, valueLeft, valueRight]
  case h_2 notFused =>
    obtain ⟨⟨vreg, sel₁⟩, used, found⟩ := map_eq_some_iff.mp emitted
    cases found
    obtain ⟨new, loads, isReg⟩ := useReg_loads env objects
      starts.bounded used
    have code : loaded.code = new := by rw [loads.code, starts.code, nil_append]
    refine ⟨by rw [code, loads.writes], ?_⟩
    intro machine flag written rest
    have value := loads.values machine cond
    rw [valueIn, isReg] at value
    rw [runBranch, conditionHolds, notFused, code]
    simp only [value]

end Operands

section Edges

variable {frame : SelectedFrame}

/-- The slots of the parameters an edge passes arguments to. -/
def pairSlots (frame : SelectedFrame) (pairs : List (ValueId × ValueId)) : List ℕ :=
  pairs.filterMap fun pair => frame.slots pair.2

theorem useReg_writes {sel sel' : Selector} {v : ValueId} {vreg : ℕ}
    (used : useReg .or1k frame v sel = some (vreg, sel')) :
    sel'.code.flatMap EdgeInst.writes = sel.code.flatMap EdgeInst.writes := by
  have isNew : ∀ {inst : ℕ → EdgeInst}, sel.cacheNew v inst = (vreg, sel') →
      EdgeInst.writes (inst sel.nextVreg) = [] →
      sel'.code.flatMap EdgeInst.writes = sel.code.flatMap EdgeInst.writes := by
    intro inst isCache noWrites
    obtain rfl : (sel.cacheNew v inst).2 = sel' := by rw [isCache]
    simp [Selector.cacheNew, noWrites]
  rw [useReg] at used
  split at used
  · cases used
    rfl
  split at used
  · exact isNew (Option.some.inj used) rfl
  split at used
  · cases used
  split at used
  case h_3 => cases used
  case h_4 => exact isNew (Option.some.inj used) rfl
  all_goals
    obtain ⟨slot, -, isCache⟩ := map_eq_some_iff.mp used
    exact isNew isCache rfl

theorem emitStores_writes {pairs : List (ValueId × ValueId)} :
    ∀ {sel sel' : Selector}, emitStores .or1k frame pairs sel = some sel' →
      sel'.code.flatMap EdgeInst.writes =
        sel.code.flatMap EdgeInst.writes ++ pairSlots frame pairs := by
  induction pairs with
  | nil =>
    intro sel sel' emitted
    cases emitted
    exact (append_nil _).symm
  | cons pair rest ih =>
    intro sel sel' emitted
    obtain ⟨next, stored, more⟩ := bind_eq_some_iff.mp emitted
    rw [ih more, pairSlots, pairSlots, filterMap_cons]
    cases isSlot : frame.slots pair.2 with
    | none =>
      simp only [storeArg, isSlot] at stored
      cases stored
      rfl
    | some slot =>
      simp only [storeArg, isSlot] at stored
      obtain ⟨⟨vreg, used⟩, isUsed, rfl⟩ := map_eq_some_iff.mp stored
      have same := useReg_writes isUsed
      simp [Selector.emit, same, EdgeInst.writes]

/-- Both outcomes of a branch: the stores of the first edge run in either. -/
theorem selectBrIf_run {sel : Selector} (starts : sel.Starts sel) {cond : ValueId}
    {thenCall elseCall : BlockCallId} {code : List BranchInst}
    (selected : selectBrIf frame cond thenCall elseCall sel = some code)
    (env : ValueId → Val) (objects : ℕ → Val) (machine : EdgeMachine) (flag : Bool) :
    ∃ after, runBranch env objects code ⟨machine, flag, []⟩ =
        some (edgeTarget frame
          (if conditionHolds env objects frame sel machine cond then thenCall else elseCall),
          after) ∧
      after.written = pairSlots frame (edgePairs frame thenCall) ++
        if conditionHolds env objects frame sel machine cond then []
        else pairSlots frame (edgePairs frame elseCall) := by
  obtain ⟨⟨compare, loaded⟩, isLoaded, more⟩ := bind_eq_some_iff.mp selected
  obtain ⟨thenSel, isThen, more⟩ := bind_eq_some_iff.mp more
  obtain ⟨elseSel, isElse, rfl⟩ := map_eq_some_iff.mp more
  obtain ⟨noWrites, sets⟩ := emitCondition_sets env objects starts isLoaded
  have thenWrites := emitStores_writes isThen
  have elseWrites := emitStores_writes isElse
  simp only [Selector.flush, flatMap_nil, nil_append] at thenWrites elseWrites
  rw [runBranch_edges, sets, runBranch_edges, runBranch]
  simp only [noWrites, thenWrites, nil_append]
  split
  · exact ⟨_, rfl, (append_nil _).symm⟩
  · rw [runBranch_edges, runBranch]
    simp only [elseWrites]
    exact ⟨_, rfl, rfl⟩

theorem mem_pairSlots_iff {pairs : List (ValueId × ValueId)} {param : ValueId} {slot : ℕ}
    (isSlot : frame.slots param = some slot) :
    slot ∈ pairSlots frame pairs ↔ param ∈ pairs.map Prod.snd := by
  rw [pairSlots, mem_filterMap, List.mem_map]
  apply exists_congr
  intro pair
  apply and_congr_right
  intro _
  constructor
  · exact fun sameSlot => frame.slotsApart pair.2 param slot sameSlot isSlot
  · rintro rfl
    exact isSlot

theorem edgePairs_params {call : BlockCallId} {pair : ValueId × ValueId}
    (mem : pair ∈ edgePairs frame call) :
    pair.2 ∈ frame.function.blockParams (edgeTarget frame call) :=
  (of_mem_zip (show (pair.1, pair.2) ∈ _ from mem)).2

end Edges

section Taken

variable {frame : SelectedFrame} {sel : Selector} {cond : ValueId}
  {thenCall elseCall : BlockCallId} {code : List BranchInst}

/-- The code of a branch reaches a target and has touched only the edge there. -/
def RunTouchesOnlyTaken (frame : SelectedFrame) (sel : Selector) (cond : ValueId)
    (thenCall elseCall : BlockCallId) (code : List BranchInst) (env : ValueId → Val)
    (objects : ℕ → Val) (machine : EdgeMachine) (flag : Bool) : Prop :=
  ∃ target after, runBranch env objects code ⟨machine, flag, []⟩ = some (target, after) ∧
    TouchesOnlyTaken frame thenCall elseCall
      (conditionHolds env objects frame sel machine cond) machine after

/-- A branch touches only the taken edge exactly when the first edge is taken
or passes no argument, and no slot that is written belongs to both targets. -/
theorem brIf_touches_only_taken_iff (starts : sel.Starts sel)
    (thenLinked : edgeTarget frame thenCall ∈ frame.function.layout)
    (elseLinked : edgeTarget frame elseCall ∈ frame.function.layout)
    (selected : selectBrIf frame cond thenCall elseCall sel = some code)
    (env : ValueId → Val) (objects : ℕ → Val) (machine : EdgeMachine) (flag : Bool) :
    RunTouchesOnlyTaken frame sel cond thenCall elseCall code env objects machine flag ↔
      (conditionHolds env objects frame sel machine cond = true ∨
        edgePairs frame thenCall = []) ∧
      ∀ pair ∈ edgePairs frame
          (if conditionHolds env objects frame sel machine cond then thenCall else elseCall),
        pair.2 ∉ frame.function.blockParams (edgeTarget frame
          (if conditionHolds env objects frame sel machine cond then elseCall else thenCall)) := by
  obtain ⟨after, ran, written⟩ := selectBrIf_run starts selected env objects machine flag
  obtain ⟨-, unchanged⟩ := runBranch_slots ran
  have inRun : RunTouchesOnlyTaken frame sel cond thenCall elseCall code env objects machine flag ↔
      TouchesOnlyTaken frame thenCall elseCall
        (conditionHolds env objects frame sel machine cond) machine after := by
    constructor
    · rintro ⟨target, after', ran', touches⟩
      cases ran.symm.trans ran'
      exact touches
    · exact fun touches => ⟨_, after, ran, touches⟩
  have hasSlot : ∀ {call param}, edgeTarget frame call ∈ frame.function.layout →
      param ∈ frame.function.blockParams (edgeTarget frame call) →
      ∃ slot, frame.slots param = some slot :=
    fun linked isParam => isSome_iff_exists.mp (frame.paramSlots _ linked _ isParam)
  rw [inRun]
  cases taken : conditionHolds env objects frame sel machine cond with
  | true =>
    simp only [taken, if_true, append_nil] at written ⊢
    constructor
    · intro touches
      refine ⟨.inl trivial, ?_⟩
      intro pair mem isElse
      obtain ⟨slot, isSlot⟩ := hasSlot elseLinked isElse
      have isWritten : slot ∈ after.written :=
        written ▸ (mem_pairSlots_iff isSlot).mpr (List.mem_map_of_mem mem)
      exact absurd (touches.elseSlots _ isElse slot isSlot isWritten) (by decide)
    · rintro ⟨-, apart⟩
      have notWritten : ∀ param ∈ frame.function.blockParams (edgeTarget frame elseCall), ∀ slot,
          frame.slots param = some slot → slot ∉ after.written := by
        intro param isParam slot isSlot mem
        rw [written, mem_pairSlots_iff isSlot] at mem
        obtain ⟨pair, isPair, rfl⟩ := List.mem_map.mp mem
        exact apart pair isPair isParam
      constructor
      · exact fun _ _ _ _ _ => rfl
      · intro param isParam slot isSlot mem
        exact absurd mem (notWritten param isParam slot isSlot)
      · intro param isParam slot isSlot
        exact unchanged slot (notWritten param isParam slot isSlot)
  | false =>
    simp only [taken, Bool.false_eq_true, if_false, false_or] at written ⊢
    constructor
    · intro touches
      -- a slot of the first target that is written is written on the wrong way
      have apart : ∀ pair, pair ∈ edgePairs frame thenCall ++ edgePairs frame elseCall →
          pair.2 ∉ frame.function.blockParams (edgeTarget frame thenCall) := by
        intro pair mem isThen
        obtain ⟨slot, isSlot⟩ := hasSlot thenLinked isThen
        have isWritten : slot ∈ after.written := by
          rw [written, mem_append, mem_pairSlots_iff isSlot, mem_pairSlots_iff isSlot,
            ← mem_append, ← map_append]
          exact List.mem_map_of_mem mem
        exact absurd (touches.thenSlots _ isThen slot isSlot isWritten) (by decide)
      constructor
      · apply eq_nil_iff_forall_not_mem.mpr
        intro pair mem
        exact apart pair (mem_append_left _ mem) (edgePairs_params mem)
      · exact fun pair mem => apart pair (mem_append_right _ mem)
    · rintro ⟨noPairs, apart⟩
      have notWritten : ∀ param ∈ frame.function.blockParams (edgeTarget frame thenCall), ∀ slot,
          frame.slots param = some slot → slot ∉ after.written := by
        intro param isParam slot isSlot mem
        rw [written, noPairs] at mem
        obtain ⟨pair, isPair, rfl⟩ := List.mem_map.mp ((mem_pairSlots_iff isSlot).mp mem)
        exact apart pair isPair isParam
      constructor
      · intro param isParam slot isSlot mem
        exact absurd mem (notWritten param isParam slot isSlot)
      · exact fun _ _ _ _ _ => rfl
      · intro param isParam slot isSlot
        exact unchanged slot (notWritten param isParam slot isSlot)

end Taken

/-- A loop with two parameters that goes on, with the parameters exchanged, as
long as the first is not zero.  They are 32-bit integers, whose type has the id 4. -/
def countLoop : Function :=
  let f := (Function.createBlock { name := "loop", sig := 1 } []).2
  let f := (f.createBlock [4, 4]).2
  let f := (f.createBlock []).2
  let f := (f.makeBlockCall 2 [2, 1]).2
  let f := (f.makeBlockCall 3 []).2
  let f := (f.constInt 4 3 0).2
  let f := (f.makeBlockCall 2 [3, 3]).2
  let f := (f.makeInst .jump 0 [] 3).2
  let f := (f.makeInst .brIf 0 [1] (packPairAux 1 2)).2
  let f := (f.makeInst .ret 0 []).2
  ((f.appendInst 1 1).appendInst 2 2).appendInst 3 3

def countFrame : SelectedFrame :=
  slottedFrame countLoop [1, 2] (by decide) (by decide) (by decide)

def countCode : List BranchInst :=
  (selectBrIf countFrame 1 1 2 swapSelector).getD []

def countMachine (first second : ℕ) : EdgeMachine where
  vregs _ := 0
  slots slot := if slot = 1 then BitVec.ofNat 128 first else BitVec.ofNat 128 second
  x87 := []

theorem countLoop_goes_on :
    RunTouchesOnlyTaken countFrame swapSelector 1 1 2 countCode (fun _ => 0) (fun _ => 0)
      (countMachine 3 7) false := by
  have starts : swapSelector.Starts swapSelector :=
    ⟨rfl, fun _ _ cached => (nomatch cached), fun _ _ cached => cached⟩
  apply (brIf_touches_only_taken_iff starts (by decide) (by decide) (by decide) _ _ _ _).mpr
  exact ⟨.inl (by decide), by decide⟩

/-- A loop that ends has overwritten its parameters. -/
theorem countLoop_leaves_touching :
    selectBrIf countFrame 1 1 2 swapSelector = some countCode ∧
      ¬ RunTouchesOnlyTaken countFrame swapSelector 1 1 2 countCode (fun _ => 0) (fun _ => 0)
        (countMachine 0 7) false := by
  refine ⟨by decide, ?_⟩
  rintro ⟨target, after, ran, touches⟩
  have stored : after.machine.slots 1 = 7 := by
    cases ran
    rfl
  have kept : after.machine.slots 1 = 0 := touches.keeps 1 (by decide) 1 (by decide)
  rw [stored] at kept
  exact absurd kept (by decide)

end Aburi.Backend.Or1k
