import Aburi.Backend.FastValueInsts

/-!
# The fast allocator preserves values

Over a whole block every value that is still needed stays in place, through
evictions, reloads and calls.  The one thing that gets lost is the high half of
a 128-bit value that the walk left in a callee-saved register across a call.
-/

namespace Aburi.Backend.FastRegAllocator

open List BitVec Nat

variable {Op : Type}

def noteUses (last : RegMap) (indexed : MInst Op × ℕ) : RegMap :=
  (virtualRegs indexed.1.operands).foldl (fun last vreg => last.insert vreg indexed.2) last

theorem insertAll_lookup (vregs : List ℕ) (index vreg : ℕ) :
    ∀ last : RegMap,
      (vregs.foldl (fun last vreg => last.insert vreg index) last).lookup vreg =
        if vreg ∈ vregs then some index else last.lookup vreg := by
  induction vregs with
  | nil => simp
  | cons first rest ih =>
    intro last
    rw [foldl_cons, ih]
    by_cases same : vreg = first
    · subst same
      simp
    · simp [same, AList.lookup_insert_ne same]

variable {vreg : ℕ}

/-- Instructions that name a register leave a last use at or after them. -/
theorem noteUses_lookup {insts : List (MInst Op)} :
    ∀ (start : ℕ) (last : RegMap),
      ((∀ inst ∈ insts, vreg ∉ virtualRegs inst.operands) →
        ((insts.zipIdx start).foldl noteUses last).lookup vreg = last.lookup vreg) ∧
      ∀ k inst, insts[k]? = some inst → vreg ∈ virtualRegs inst.operands →
        ∃ final, ((insts.zipIdx start).foldl noteUses last).lookup vreg = some final ∧
          start + k ≤ final := by
  induction insts with
  | nil =>
    intro start last
    exact ⟨fun _ => rfl, fun k inst found => by simp at found⟩
  | cons first rest ih =>
    intro start last
    obtain ⟨unnamed, named⟩ := ih (start + 1) (noteUses last (first, start))
    have noted : (noteUses last (first, start)).lookup vreg =
        if vreg ∈ virtualRegs first.operands then some start else last.lookup vreg :=
      insertAll_lookup _ _ _ _
    rw [zipIdx_cons, foldl_cons]
    constructor
    · intro none
      rw [unnamed fun inst member => none inst (.tail _ member), noted,
        if_neg (none first (.head _))]
    · intro k inst found isNamed
      by_cases later : ∀ inst ∈ rest, vreg ∉ virtualRegs inst.operands
      · cases k with
        | zero =>
          obtain rfl : first = inst := by simpa using found
          refine ⟨start, ?_, Nat.le_refl _⟩
          rw [unnamed later, noted, if_pos isNamed]
        | succ k => exact absurd isNamed (later inst (mem_of_getElem? found))
      · push Not at later
        obtain ⟨other, member, otherNamed⟩ := later
        cases k with
        | zero =>
          obtain ⟨position, isPosition⟩ := getElem?_of_mem member
          obtain ⟨final, isFinal, bound⟩ := named position other isPosition otherNamed
          exact ⟨final, isFinal, by omega⟩
        | succ k =>
          obtain ⟨final, isFinal, bound⟩ := named k inst found isNamed
          exact ⟨final, isFinal, by omega⟩

/-- Virtual registers that an instruction from `k` on names. -/
def Live (insts : List (MInst Op)) (k vreg : ℕ) : Prop :=
  ∃ final, (lastUse insts).lookup vreg = some final ∧ k ≤ final

variable {k : ℕ} {inst : MInst Op}

theorem live_of_named {insts : List (MInst Op)} (found : insts[k]? = some inst)
    (named : vreg ∈ virtualRegs inst.operands) :
    Live insts k vreg := by
  obtain ⟨final, isFinal, bound⟩ := (noteUses_lookup 0 ∅).2 k inst found named
  exact ⟨final, isFinal, by omega⟩

theorem Live.of_succ {insts : List (MInst Op)} (live : Live insts (k + 1) vreg) :
    Live insts k vreg := by
  obtain ⟨final, isFinal, bound⟩ := live
  exact ⟨final, isFinal, by omega⟩

theorem ReadsVreg.named {target : Target Op} {index : ℕ} (reads : ReadsVreg target inst index vreg) :
    vreg ∈ virtualRegs inst.operands :=
  mem_filterMap.mpr ⟨_, mem_of_getElem? reads.operand, rfl⟩

section Release

variable {target : Target Op} {access : Op → Option Access} {function : MFunction Op}
  {base : Contents} {values values' : ℕ → Option (BitVec 128)}

/-- Registers given back after their last use are no longer needed. -/
theorem Holding.release {before : MFunction Op} {state : AllocState} {last : RegMap}
    (holding : Holding target access function base values (BlockState.walk before state))
    (needed : ∀ vreg value, values' vreg = some value →
      values vreg = some value ∧ last.lookup vreg ≠ some k) :
    Holding target access function base values'
      (BlockState.walk before (releaseLastUses last k inst state)) := by
  unfold releaseLastUses
  have kept : Holding target access function base values' (BlockState.walk before state) :=
    ⟨holding.toWellPlaced, fun vreg value isValue =>
      holding.located vreg value (needed vreg value isValue).1⟩
  clear holding
  induction virtualRegs inst.operands generalizing state with
  | nil => exact kept
  | cons first rest ih =>
    apply ih
    by_cases final : last.lookup first = some k
    · simp only [if_pos final]
      refine ⟨WellPlaced.unassign kept.toWellPlaced first, ?_⟩
      intro vreg value isValue
      have different : vreg ≠ first := by
        rintro rfl
        exact (needed vreg value isValue).2 final
      have located := kept.located vreg value isValue
      simp only [Located, BlockState.walk, unassign_lookup_ne different,
        unassign_spillSlots] at located ⊢
      exact located
    · simp only [if_neg final]
      exact kept

end Release

section Blocks

variable (target : Target Op) (function : MFunction Op) (insts : List (MInst Op))
  (outcome : Outcome)

/-- The value of a virtual register in front of instruction `k`. -/
def valueBefore (vreg : ℕ) : ℕ → Option (BitVec 128)
  | 0 => none
  | k + 1 =>
    match insts[k]? with
    | some inst =>
      valueAfter target outcome k inst
        (afterReads target inst (stateBefore target function insts k).function
          (stateBefore target function insts k).state).2.state vreg (valueBefore vreg k)
    | none => valueBefore vreg k

open Classical in
/-- The values that are still needed. -/
noncomputable def neededBefore (k vreg : ℕ) : Option (BitVec 128) :=
  if Live insts k vreg then valueBefore target function insts outcome vreg k else none

end Blocks

section Walk

variable {target : Target Op} {access : Op → Option Access} {function : MFunction Op}
  {insts : List (MInst Op)} {outcome : Outcome}

theorem valueAfter_isSome {placed : AllocState} {old : Option (BitVec 128)} :
    (valueAfter target outcome k inst placed vreg old).isSome =
      (definesVreg target vreg inst || old.isSome) := by
  unfold valueAfter
  split
  · simp_all
  · rename_i notDef
    simp only [notDef, Bool.false_or]
    split
    · split
      · split <;> simp
      · rfl
    · rfl

attribute [local grind =] lastDef

theorem valueBefore_isSome (vreg k : ℕ) :
    (valueBefore target function insts outcome vreg k).isSome =
      (lastDef target insts vreg k).isSome := by
  induction k with
  | zero => rfl
  | succ k ih =>
    rw [valueBefore, lastDef]
    cases insts[k]? with
    | none => simpa using ih
    | some inst =>
      rw [valueAfter_isSome, ih]
      cases defines : definesVreg target vreg inst <;> simp [defines]

theorem stateBefore_succ_of_none (found : insts[k]? = none) :
    stateBefore target function insts (k + 1) = stateBefore target function insts k := by
  have short : insts.length ≤ k := by simpa using found
  unfold stateBefore
  rw [take_of_length_le (by simp; omega), take_of_length_le (by simpa using short)]

theorem neededBefore_of_reads (allocatable : Allocatable target function insts) (outcome : Outcome)
    (found : insts[k]? = some inst) {index : ℕ} (reads : ReadsVreg target inst index vreg) :
    neededBefore target function insts outcome k vreg =
        valueBefore target function insts outcome vreg k ∧
      (valueBefore target function insts outcome vreg k).isSome = true := by
  constructor
  · rw [neededBefore, if_pos (live_of_named found reads.named)]
  · rw [valueBefore_isSome]
    exact allocatable.definedFirst k inst index vreg found reads

variable (spillCode : SpillCode target access function) (regular : target.Regular)
  (allocatable : Allocatable target function insts) (outcome : Outcome) (initial : Contents)

include spillCode regular allocatable in
theorem instStep_at (holding : Holding target access function
      (contentsBefore target access function insts outcome initial k)
      (neededBefore target function insts outcome k)
      (BlockState.walk (stateBefore target function insts k).function
        (stateBefore target function insts k).state)) (found : insts[k]? = some inst) :
    InstStep target access function
      (contentsBefore target access function insts outcome initial k)
      (neededBefore target function insts outcome k) outcome k inst
      (afterReads target inst (stateBefore target function insts k).function
        (stateBefore target function insts k).state).2.state
      (rewriteAt target function insts k inst) := by
  have member := mem_of_getElem? found
  refine rewriteInst_step spillCode regular (allocatable.room inst member)
    (allocatable.outside inst member) holding ?_ outcome k
  intro index vreg reads
  obtain ⟨same, isSome⟩ := neededBefore_of_reads allocatable outcome found reads
  rw [same]
  exact isSome

include spillCode regular allocatable in
/-- In front of every instruction the values that are still needed are in
place. -/
theorem holding_before (k : ℕ) :
    Holding target access function
      (contentsBefore target access function insts outcome initial k)
      (neededBefore target function insts outcome k)
      (BlockState.walk (stateBefore target function insts k).function
        (stateBefore target function insts k).state) := by
  induction k with
  | zero =>
    refine ⟨⟨AllocState.Coherent.empty, ?_, ?_, ?_, rfl, rfl, Nat.le_refl _⟩, ?_⟩
    · intro vreg phys bound
      simp [BlockState.walk, stateBefore] at bound
    · intro vreg slot isSlot
      simp [BlockState.walk, stateBefore] at isSlot
    · intro vreg other slot isSlot
      simp [BlockState.walk, stateBefore] at isSlot
    · intro vreg value isValue
      simp [neededBefore, valueBefore] at isValue
  | succ k ih =>
    cases found : insts[k]? with
    | none =>
      have noneNeeded : ∀ vreg value,
          neededBefore target function insts outcome (k + 1) vreg = some value →
            neededBefore target function insts outcome k vreg = some value := by
        intro vreg value isValue
        simp only [neededBefore, valueBefore, found] at isValue ⊢
        split at isValue
        case isTrue live => rwa [if_pos live.of_succ]
        case isFalse => cases isValue
      rw [stateBefore_succ_of_none found, contentsBefore, found]
      exact ⟨ih.toWellPlaced, fun vreg value isValue =>
        ih.located vreg value (noneNeeded vreg value isValue)⟩
    | some inst =>
      have step := instStep_at spillCode regular allocatable outcome initial ih found
      rw [stateBefore_succ target function found, contentsBefore, found]
      refine step.leaves.release ?_
      intro vreg value isValue
      simp only [neededBefore, valueBefore, found] at isValue
      split at isValue
      case isFalse => cases isValue
      case isTrue live =>
        refine ⟨?_, ?_⟩
        · rw [neededBefore, if_pos live.of_succ]
          exact isValue
        · obtain ⟨final, isFinal, bound⟩ := live
          rw [isFinal]
          intro same
          have equal : final = k := Option.some.inj same
          omega

include spillCode regular allocatable in
theorem reads_value (found : insts[k]? = some inst) {index : ℕ}
    (reads : ReadsVreg target inst index vreg) :
    ∃ phys value,
      (rewriteAt target function insts k inst).1.operands[index]? = some (.reg (.phys phys)) ∧
      valueBefore target function insts outcome vreg k = some value ∧
      lowBits (vregBits function vreg)
          ((contentsAt target access function insts outcome initial k inst).regs phys) =
        lowBits (vregBits function vreg) value := by
  have step := instStep_at spillCode regular allocatable outcome initial
    (holding_before spillCode regular allocatable outcome initial k) found
  obtain ⟨phys, value, operand, isValue, agrees⟩ := step.reads index vreg reads
  rw [(neededBefore_of_reads allocatable outcome found reads).1] at isValue
  exact ⟨phys, value, operand, isValue, agrees⟩

end Walk

section Losses

variable {target : Target Op} {access : Op → Option Access} {function : MFunction Op}
  {insts : List (MInst Op)} {outcome : Outcome}

theorem lastDef_lt {j : ℕ} (recent : lastDef target insts vreg k = some j) : j < k := by
  induction k with
  | zero => cases recent
  | succ k ih =>
    rw [lastDef] at recent
    split at recent
    · cases recent
      exact lt_succ_self _
    · exact lt_succ_of_lt (ih recent)

/-- A call finds a virtual register in a callee-saved register. -/
def SavedAcross (target : Target Op) (function : MFunction Op) (insts : List (MInst Op))
    (vreg c : ℕ) : Prop :=
  ∃ call phys, insts[c]? = some call ∧ (target.opcodeInfo call.opcode).isCall = true ∧
    (afterReads target call (stateBefore target function insts c).function
      (stateBefore target function insts c).state).2.state.vregToPhys.lookup vreg = some phys ∧
    target.regs.isCalleeSaved phys = true

/-- Between two definitions a value changes only where a call finds it in a
callee-saved register. -/
theorem valueBefore_succ
    (notDef : ∀ inst, insts[k]? = some inst → definesVreg target vreg inst = false) :
    valueBefore target function insts outcome vreg (k + 1) =
        valueBefore target function insts outcome vreg k ∨
      SavedAcross target function insts vreg k ∧
        ∃ phys, valueBefore target function insts outcome vreg (k + 1) =
          (valueBefore target function insts outcome vreg k).map
            (withHigh · ((outcome.left k).regs phys)) := by
  rw [valueBefore]
  cases found : insts[k]? with
  | none => exact .inl rfl
  | some inst =>
    simp only [valueAfter, notDef inst found, Bool.false_eq_true, if_false]
    split
    case isFalse => exact .inl rfl
    case isTrue isCall =>
      split
      case h_2 => exact .inl rfl
      case h_1 phys bound =>
        split
        case isFalse => exact .inl rfl
        case isTrue saved => exact .inr ⟨⟨inst, phys, found, isCall, bound, saved⟩, phys, rfl⟩

theorem lastDef_succ_cases {j : ℕ} (recent : lastDef target insts vreg (k + 1) = some j) :
    (∃ inst, insts[k]? = some inst ∧ definesVreg target vreg inst = true ∧ j = k) ∨
      (∀ inst, insts[k]? = some inst → definesVreg target vreg inst = false) ∧
        lastDef target insts vreg k = some j := by
  rw [lastDef] at recent
  cases found : insts[k]? with
  | none => exact .inr ⟨by simp, by simpa [found] using recent⟩
  | some inst =>
    cases defines : definesVreg target vreg inst with
    | true => exact .inl ⟨inst, rfl, defines, by simpa [found, defines] using recent.symm⟩
    | false =>
      refine .inr ⟨?_, by simpa [found, defines] using recent⟩
      intro other same
      cases same
      exact defines

/-- As long as no call finds it in a callee-saved register, or as long as the
low half is all of it, a value stays what was written. -/
theorem valueBefore_recent {j : ℕ} :
    ∀ {k : ℕ}, lastDef target insts vreg k = some j →
      (vregBits function vreg ≤ 64 ∨
        ∀ c, j < c → c < k → ¬ SavedAcross target function insts vreg c) →
      ∃ value, valueBefore target function insts outcome vreg k = some value ∧
        lowBits (vregBits function vreg) value =
          lowBits (vregBits function vreg) (outcome.written j) := by
  intro k
  induction k with
  | zero => intro recent; cases recent
  | succ k ih =>
    intro recent safe
    rcases lastDef_succ_cases recent with ⟨inst, found, defines, rfl⟩ | ⟨notDef, earlier⟩
    · refine ⟨outcome.written j, ?_, rfl⟩
      rw [valueBefore, found]
      simp [valueAfter, defines]
    · obtain ⟨value, isValue, agrees⟩ := ih earlier (safe.imp_right fun unsaved c after before =>
        unsaved c after (lt_succ_of_lt before))
      rcases valueBefore_succ notDef with same | ⟨saved, phys, changed⟩
      · exact ⟨value, same.trans isValue, agrees⟩
      · rcases safe with half | unsaved
        · refine ⟨_, by rw [changed, isValue]; rfl, ?_⟩
          rw [lowBits_withHigh half]
          exact agrees
        · exact absurd saved (unsaved k (lastDef_lt earlier) (lt_succ_self _))

/-- An outcome that shows every loss: zeros are written, and calls leave ones. -/
def lossy : Outcome where
  written _ := 0
  left _ := ⟨fun _ => allOnes 128, fun _ => 0⟩

theorem le_withHigh_allOnes (kept : BitVec 128) :
    2 ^ 64 ≤ (withHigh kept (allOnes 128)).toNat := by
  rw [toNat_withHigh, toNat_allOnes]
  omega

theorem valueBefore_lossy {j c : ℕ} (after : j < c)
    (saved : SavedAcross target function insts vreg c) :
    ∀ {k : ℕ}, lastDef target insts vreg k = some j → c < k →
      ∃ value, valueBefore target function insts lossy vreg k = some value ∧
        2 ^ 64 ≤ value.toNat := by
  intro k
  induction k with
  | zero => intro recent; cases recent
  | succ k ih =>
    intro recent before
    rcases lastDef_succ_cases recent with ⟨inst, found, defines, rfl⟩ | ⟨notDef, earlier⟩
    · omega
    · by_cases isCall : c = k
      · subst isCall
        obtain ⟨call, phys, found, isCall, bound, isSaved⟩ := saved
        obtain ⟨value, isValue⟩ := Option.isSome_iff_exists.mp
          ((valueBefore_isSome vreg c).trans (by rw [earlier]; rfl) :
            (valueBefore target function insts lossy vreg c).isSome = true)
        refine ⟨_, ?_, le_withHigh_allOnes value⟩
        rw [valueBefore, found]
        simp only [valueAfter, notDef call found, isCall, bound, isSaved, isValue, if_true,
          Bool.false_eq_true, if_false, Option.map_some]
        rfl
      · obtain ⟨value, isValue, high⟩ := ih earlier (by omega)
        rcases valueBefore_succ notDef with same | ⟨-, phys, changed⟩
        · exact ⟨value, same.trans isValue, high⟩
        · exact ⟨_, by rw [changed, isValue]; rfl, le_withHigh_allOnes value⟩

/-- Reads see what was written most recently exactly when no call loses half of
a value that is read later. -/
theorem readsMostRecent_iff (spillCode : SpillCode target access function)
    (regular : target.Regular) (allocatable : Allocatable target function insts) :
    ReadsMostRecent target access function insts ↔
      ∀ k inst index vreg j c, insts[k]? = some inst → ReadsVreg target inst index vreg →
        function.vregClass vreg = .fpr128 → lastDef target insts vreg k = some j →
        j < c → c < k → ¬ SavedAcross target function insts vreg c := by
  constructor
  · intro right k inst index vreg j c found reads wide recent after before saved
    obtain ⟨lost, isLost, high⟩ := valueBefore_lossy after saved recent before
    obtain ⟨seen, value, operand, isValue, agrees⟩ := reads_value spillCode regular allocatable
      lossy ⟨fun _ => 0, fun _ => 0⟩ found reads
    obtain ⟨recent', other, isRecent, otherOperand, observed⟩ :=
      right lossy ⟨fun _ => 0, fun _ => 0⟩ k inst index vreg found reads
    obtain rfl : seen = other := by simpa [operand] using otherOperand
    have full : vregBits function vreg = 128 := by simp [vregBits, wide, spillBytes]
    rw [agrees, full, lowBits_all, lowBits_all] at observed
    obtain rfl : lost = value := Option.some.inj (isLost.symm.trans isValue)
    rw [observed] at high
    simp [lossy] at high
  · intro kept outcome initial k inst index vreg found reads
    obtain ⟨j, recent⟩ := Option.isSome_iff_exists.mp
      (allocatable.definedFirst k inst index vreg found reads)
    obtain ⟨phys, value, operand, isValue, agrees⟩ := reads_value spillCode regular allocatable
      outcome initial found reads
    have safe : vregBits function vreg ≤ 64 ∨
        ∀ c, j < c → c < k → ¬ SavedAcross target function insts vreg c := by
      rcases spillCode.vregBits_cases vreg with ⟨-, half⟩ | ⟨wide, -⟩
      · exact .inl half
      · exact .inr fun c => kept k inst index vreg j c found reads wide recent
    obtain ⟨written, isWritten, same⟩ := valueBefore_recent recent safe
    obtain rfl : written = value := Option.some.inj (isWritten.symm.trans isValue)
    exact ⟨j, phys, recent, operand, agrees.trans same⟩

end Losses

/-- The function as it is when block `b` is allocated. -/
def functionBefore (target : Target Op) (function : MFunction Op) (b : ℕ) : MFunction Op :=
  (function.blocks.take b).foldl
    (fun function block => (allocBlock target function block).function) function

section Functions

variable {target : Target Op} {access : Op → Option Access} {function : MFunction Op}

/-- The blocks one after the other, each from the function the last one left. -/
def allocBlocks (target : Target Op) : MFunction Op → List (MBlock Op) → List (MBlock Op)
  | _, [] => []
  | function, block :: rest =>
    { block with insts := (allocBlock target function block).out } ::
      allocBlocks target (allocBlock target function block).function rest

theorem run_fold_blocks (blocks : List (MBlock Op)) :
    ∀ (function : MFunction Op) (done : List (MBlock Op)),
      (blocks.foldl
        (fun (state : MFunction Op × List (MBlock Op)) block =>
          ((allocBlock target state.1 block).function,
            state.2 ++ [{ block with insts := (allocBlock target state.1 block).out }]))
        (function, done)).2 = done ++ allocBlocks target function blocks := by
  induction blocks with
  | nil => simp [allocBlocks]
  | cons block rest ih =>
    intro function done
    rw [foldl_cons, ih, allocBlocks, List.append_assoc]
    rfl

theorem allocBlocks_getElem? (blocks : List (MBlock Op)) :
    ∀ (function : MFunction Op) (b : ℕ),
      (allocBlocks target function blocks)[b]? = blocks[b]?.map fun block =>
        { block with
          insts := (allocBlock target
            ((blocks.take b).foldl
              (fun function block => (allocBlock target function block).function) function)
            block).out } := by
  induction blocks with
  | nil => simp [allocBlocks]
  | cons block rest ih =>
    intro function b
    cases b with
    | zero => rfl
    | succ b => exact ih _ b

theorem run_blocks (target : Target Op) (function : MFunction Op) (b : ℕ) :
    (run target function).blocks[b]? = function.blocks[b]?.map fun block =>
      { block with
        insts := (allocBlock target (functionBefore target function b) block).out } := by
  have blocks : (run target function).blocks = [] ++ allocBlocks target function function.blocks :=
    run_fold_blocks function.blocks function []
  rw [blocks, nil_append, allocBlocks_getElem?]
  rfl

theorem SpillCode.congr {other : MFunction Op} (spillCode : SpillCode target access function)
    (word : other.wordBytes = function.wordBytes) : SpillCode target access other := by
  have bytes : ∀ cls, spillBytes other cls = spillBytes function cls := by
    intro cls
    cases cls <;> simp [spillBytes, word]
  refine ⟨?_, ?_, word ▸ spillCode.word⟩
  · intro cls
    rw [bytes]
    exact spillCode.spill cls
  · intro cls
    rw [bytes]
    exact spillCode.reload cls

theorem namedInOrder_congr {other : MFunction Op}
    (classes : other.vregClasses = function.vregClasses) (cls : RegClass) (inst : MInst Op) :
    namedInOrder other cls inst = namedInOrder function cls inst := by
  simp [namedInOrder, MFunction.vregClass, classes]

theorem Allocatable.congr {other : MFunction Op} {insts : List (MInst Op)}
    (allocatable : Allocatable target function insts)
    (classes : other.vregClasses = function.vregClasses) : Allocatable target other insts := by
  refine ⟨allocatable.definedFirst, ?_, allocatable.outside⟩
  intro inst member cls
  rw [namedInOrder_congr classes]
  exact allocatable.room inst member cls

variable (spillCode : SpillCode target access function) (regular : target.Regular)
  (allocatable : ∀ block ∈ function.blocks, Allocatable target function block.insts)

include spillCode regular allocatable in
theorem functionBefore_same (b : ℕ) :
    (functionBefore target function b).vregClasses = function.vregClasses ∧
      (functionBefore target function b).wordBytes = function.wordBytes := by
  induction b with
  | zero => exact ⟨rfl, rfl⟩
  | succ b ih =>
    cases found : function.blocks[b]? with
    | none =>
      have same : functionBefore target function (b + 1) = functionBefore target function b := by
        simp [functionBefore, take_add_one, found]
      rw [same]
      exact ih
    | some block =>
      have next : functionBefore target function (b + 1) =
          (allocBlock target (functionBefore target function b) block).function := by
        simp [functionBefore, take_add_one, found]
      have member := mem_of_getElem? found
      have holding := holding_before (spillCode.congr ih.2) regular
        ((allocatable block member).congr ih.1) lossy ⟨fun _ => 0, fun _ => 0⟩
        block.insts.length
      rw [next, allocBlock_eq_stateBefore]
      exact ⟨holding.classes.trans ih.1, holding.word.trans ih.2⟩

/-- The walk's maps are inverse to each other in front of an instruction, when
its operands are in registers, and when it is emitted. -/
def MapsInverse (target : Target Op) (function : MFunction Op) (insts : List (MInst Op)) :
    Prop :=
  ∀ k, (stateBefore target function insts k).state.Coherent ∧
    ∀ inst, insts[k]? = some inst →
      (afterReads target inst (stateBefore target function insts k).function
        (stateBefore target function insts k).state).2.state.Coherent ∧
      (rewriteAt target function insts k inst).2.state.Coherent

theorem mapsInverse (function : MFunction Op) (insts : List (MInst Op)) :
    MapsInverse target function insts := by
  intro k
  have coherent := stateBefore_coherent target function insts k
  refine ⟨coherent, fun inst _ => ⟨?_, ?_⟩⟩
  · exact readOperands_coherent target _ inst.operands 0 _ coherent
  · exact rewriteInst_coherent target inst _ coherent

end Functions

end Aburi.Backend.FastRegAllocator
