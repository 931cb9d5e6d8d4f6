import Aburi.Backend.Mir
import Aburi.Lib.ParallelMoves

/-!
# Parallel copies of an edge

The linear tiers copy the arguments of an edge to the registers of the block
parameters.  The loop is the same for both targets; they differ in the
instructions that copy a register of a class.
-/

namespace Aburi.Backend

open Aburi.Lib List

inductive LinearTier where
  | aarch64
  | x86
  deriving DecidableEq

inductive CopyOp where
  | movX
  | fmovD
  | movV16b
  | movRR64
  | movapsRR
  deriving DecidableEq

def copyOp : LinearTier → RegClass → CopyOp
  | .aarch64, .gpr => .movX
  | .aarch64, .fpr => .fmovD
  | .aarch64, .fpr128 => .movV16b
  | .x86, .gpr => .movRR64
  | .x86, .fpr => .movapsRR
  | .x86, .fpr128 => .movapsRR

/-- The loop's copies, the registers of the function and what was emitted. -/
structure CopyState where
  pending : List (RegMove ℕ)
  vregClasses : List RegClass
  emitted : List (MInst CopyOp) := []
  deriving DecidableEq

def copyInst (tier : LinearTier) (cls : RegClass) (dest source : ℕ) : MInst CopyOp :=
  { opcode := copyOp tier cls, operands := [.reg (.vreg dest), .reg (.vreg source)] }

namespace CopyState

def classOf (state : CopyState) (vreg : ℕ) : RegClass := state.vregClasses.getD vreg .gpr

def emitCopy (tier : LinearTier) (state : CopyState) (dest source : ℕ) : CopyState :=
  { state with emitted := state.emitted ++ [copyInst tier (state.classOf dest) dest source] }

/-- No pending copy reads the destination. -/
def ready (pending : List (RegMove ℕ)) (copy : RegMove ℕ) : Bool :=
  !pending.any (fun other => other.source == copy.dest)

/-- The body of the loop: the first copy that can go is emitted, or else the
first destination is saved to a new register. -/
def step (tier : LinearTier) (state : CopyState) : CopyState :=
  match state.pending.find? (ready state.pending) with
  | some copy =>
    { state.emitCopy tier copy.dest copy.source with
      pending := state.pending.eraseP (ready state.pending) }
  | none =>
    match state.pending with
    | [] => state
    | front :: _ =>
      let temp := state.vregClasses.length
      let grown : CopyState :=
        { state with vregClasses := state.vregClasses ++ [state.classOf front.dest] }
      { grown.emitCopy tier temp front.dest with
        pending := state.pending.map (RegMove.renamed front.dest temp) }

def loop (tier : LinearTier) : ℕ → CopyState → CopyState
  | 0, state => state
  | fuel + 1, state => if state.pending.isEmpty then state else loop tier fuel (state.step tier)

/-- Copies of a register to itself are left out from the start. -/
def start (vregClasses : List RegClass) (copies : List (RegMove ℕ)) : CopyState :=
  { pending := copies.filter (fun copy => decide (copy.dest ≠ copy.source)), vregClasses }

end CopyState

/-- A copy moves what the register holds. -/
def execCopy {V : Type} (regs : ℕ → V) (inst : MInst CopyOp) : ℕ → V :=
  match inst.operands with
  | [.reg (.vreg dest), .reg (.vreg source)] => RegMove.apply regs ⟨dest, source⟩
  | _ => regs

def execCopies {V : Type} (regs : ℕ → V) (insts : List (MInst CopyOp)) : ℕ → V :=
  insts.foldl execCopy regs

@[simp] theorem execCopies_copy {V : Type} (regs : ℕ → V) (insts : List (MInst CopyOp))
    (tier : LinearTier) (cls : RegClass) (dest source : ℕ) :
    execCopies regs (insts ++ [copyInst tier cls dest source]) =
      RegMove.apply (execCopies regs insts) ⟨dest, source⟩ := by
  rw [execCopies, foldl_append]
  rfl

namespace CopyState

attribute [local grind =] loop

theorem ready_iff {pending : List (RegMove ℕ)} {copy : RegMove ℕ} :
    ready pending copy = true ↔ ∀ other ∈ pending, other.source ≠ copy.dest := by
  simp [ready]

/-- The two things a turn of the loop can do. -/
inductive Turn (tier : LinearTier) (state : CopyState) : CopyState → Prop where
  | emit {before after : List (RegMove ℕ)} {copy : RegMove ℕ}
      (isPending : state.pending = before ++ copy :: after)
      (unread : ∀ other ∈ state.pending, other.source ≠ copy.dest) :
      Turn tier state { state.emitCopy tier copy.dest copy.source with pending := before ++ after }
  | detour {front : RegMove ℕ} {rest : List (RegMove ℕ)} (isPending : state.pending = front :: rest)
      (blocked : state.pending.find? (ready state.pending) = none) :
      Turn tier state
        { pending := state.pending.map (RegMove.renamed front.dest state.vregClasses.length)
          vregClasses := state.vregClasses ++ [state.classOf front.dest]
          emitted := state.emitted ++
            [copyInst tier (state.classOf front.dest) state.vregClasses.length front.dest] }

variable {state : CopyState}

theorem step_turn (tier : LinearTier) (pending : state.pending ≠ []) :
    Turn tier state (state.step tier) := by
  unfold step
  split
  case h_1 copy found =>
    obtain ⟨isReady, before, after, isPending, waiting⟩ := find?_eq_some_iff_append.mp found
    have erased : state.pending.eraseP (ready state.pending) = before ++ after := by
      have notReady : ∀ other ∈ before, ¬ ready state.pending other = true := by
        intro other member
        simpa using waiting other member
      have taken := eraseP_append_right (copy :: after) notReady
      rwa [← isPending, eraseP_cons_of_pos isReady] at taken
    rw [erased]
    exact .emit isPending (ready_iff.1 isReady)
  case h_2 blocked =>
    split
    case h_1 isEmpty => exact absurd isEmpty pending
    case h_2 front rest isPending =>
      have isClass : classOf
          { state with vregClasses := state.vregClasses ++ [state.classOf front.dest] }
          state.vregClasses.length = state.classOf front.dest := by
        simp [classOf]
      dsimp only [emitCopy]
      rw [isClass]
      exact .detour isPending blocked

/-- Once a destination is saved, the copy into it is no longer blocked. -/
theorem find_after_detour {pending : List (RegMove ℕ)} {front : RegMove ℕ} {rest : List (RegMove ℕ)}
    (isPending : pending = front :: rest) {temp : ℕ} (fresh : temp ≠ front.dest) :
    (pending.map (RegMove.renamed front.dest temp)).find?
      (ready (pending.map (RegMove.renamed front.dest temp))) ≠ none := by
  intro blocked
  have member : front.renamed front.dest temp ∈ pending.map (RegMove.renamed front.dest temp) := by
    rw [isPending]
    exact List.mem_map_of_mem mem_cons_self
  apply find?_eq_none.mp blocked _ member
  rw [ready_iff]
  intro other isOther
  obtain ⟨copy, -, rfl⟩ := List.mem_map.mp isOther
  rw [RegMove.renamed_dest, RegMove.renamed]
  split
  case isTrue => exact fresh
  case isFalse differs => exact differs

/-- Every copy takes at most two turns. -/
theorem loop_finishes (tier : LinearTier) {count fuel : ℕ} (few : state.pending.length ≤ count)
    (enough : 2 * count ≤ fuel)
    (dests : ∀ copy ∈ state.pending, copy.dest < state.vregClasses.length) :
    (loop tier fuel state).pending = [] := by
  induction count generalizing fuel state with
  | zero =>
    have isEmpty : state.pending = [] := length_eq_zero_iff.mp (by omega)
    cases fuel with
    | zero => exact isEmpty
    | succ fuel => simp [loop, isEmpty]
  | succ count ih =>
    obtain ⟨fuel, rfl⟩ : ∃ next, fuel = next + 2 := ⟨fuel - 2, by omega⟩
    by_cases isEmpty : state.pending = []
    · simp [loop, isEmpty]
    -- a turn that emits leaves one copy less
    have emits : ∀ {fuel : ℕ} {state : CopyState}, state.pending ≠ [] →
        state.pending.length ≤ count + 1 → 2 * count ≤ fuel →
        (∀ copy ∈ state.pending, copy.dest < state.vregClasses.length) →
        state.pending.find? (ready state.pending) ≠ none →
        (loop tier (fuel + 1) state).pending = [] := by
      intro fuel state nonempty few enough dests found
      rw [loop, if_neg (by simpa using nonempty)]
      have turn := step_turn tier nonempty
      generalize state.step tier = next at turn ⊢
      cases turn with
      | emit isPending unread =>
        rw [isPending] at few dests
        refine ih ?_ enough ?_
        · simp only [length_append, length_cons] at few ⊢
          omega
        · intro copy member
          apply dests copy
          rcases mem_append.mp member with first | last
          · exact mem_append_left _ first
          · exact mem_append_right _ (mem_cons_of_mem _ last)
      | detour isPending blocked => exact absurd blocked found
    by_cases blocked : state.pending.find? (ready state.pending) = none
    · rw [loop, if_neg (by simpa using isEmpty)]
      have turn := step_turn tier isEmpty
      generalize state.step tier = next at turn ⊢
      cases turn with
      | emit isPending unread =>
        have member := find?_eq_none.mp blocked _
          (by rw [isPending]; exact mem_append_right _ mem_cons_self)
        exact absurd (ready_iff.2 unread) member
      | @detour front rest isPending _ =>
        have isFront : front ∈ state.pending := isPending ▸ mem_cons_self
        apply emits
        · simpa using isEmpty
        · simpa using few
        · omega
        · intro copy member
          obtain ⟨before, isBefore, rfl⟩ := List.mem_map.mp member
          have bound := dests before isBefore
          rw [RegMove.renamed_dest, length_append]
          exact Nat.lt_add_right _ bound
        · exact find_after_detour isPending (Nat.ne_of_lt (dests front isFront)).symm
    · exact emits isEmpty few (by omega) dests blocked

/-- The emitted copies leave what the pending ones need. -/
structure Follows {V : Type} (count : ℕ) (goal regs : ℕ → V) (state : CopyState) : Prop where
  remaining : Remaining (· < count) goal (execCopies regs state.emitted) state.pending
  grown : count ≤ state.vregClasses.length
  sources : ∀ copy ∈ state.pending, copy.source < state.vregClasses.length

section

variable {V : Type} {count : ℕ} {goal regs : ℕ → V} (follows : Follows count goal regs state)
  (tier : LinearTier)
include follows tier

theorem Follows.step (pending : state.pending ≠ []) :
    Follows count goal regs (state.step tier) := by
  obtain ⟨remaining, grown, sources⟩ := follows
  have turn := step_turn tier pending
  generalize state.step tier = next at turn ⊢
  cases turn with
  | @emit before after copy isPending unread =>
    rw [isPending] at remaining unread sources
    refine ⟨?_, grown, ?_⟩
    · simp only [emitCopy, execCopies_copy]
      exact remaining.emit unread
    · intro other member
      apply sources other
      rcases mem_append.mp member with first | last
      · exact mem_append_left _ first
      · exact mem_append_right _ (mem_cons_of_mem _ last)
  | @detour front rest isPending blocked =>
    refine ⟨?_, ?_, ?_⟩
    · simp only [execCopies_copy]
      apply remaining.detour
      · exact not_lt.mpr grown
      · exact fun other member => Nat.ne_of_lt (sources other member)
    · rw [length_append]
      exact Nat.le_add_right_of_le grown
    · intro other member
      obtain ⟨copy, isCopy, rfl⟩ := List.mem_map.mp member
      have bound := sources copy isCopy
      simp only [RegMove.renamed, length_append, length_singleton]
      split
      · exact Nat.lt_succ_self _
      · exact Nat.lt_succ_of_lt bound

theorem Follows.loop (fuel : ℕ) :
    Follows count goal regs (loop tier fuel state) := by
  induction fuel generalizing state with
  | zero => exact follows
  | succ fuel ih =>
    rw [CopyState.loop]
    split
    case isTrue => exact follows
    case isFalse more => exact ih (follows.step tier (by simpa using more))

end

/-- Copies connect registers of one class, and so do the emitted instructions. -/
structure OneClass (tier : LinearTier) (state : CopyState) : Prop where
  dests : ∀ copy ∈ state.pending, copy.dest < state.vregClasses.length
  sources : ∀ copy ∈ state.pending, copy.source < state.vregClasses.length
  copies : ∀ copy ∈ state.pending, state.classOf copy.dest = state.classOf copy.source
  emitted : ∀ inst ∈ state.emitted, ∃ cls dest source, inst = copyInst tier cls dest source ∧
    dest < state.vregClasses.length ∧ source < state.vregClasses.length ∧
    state.classOf dest = cls ∧ state.classOf source = cls

theorem classOf_grown {classes : List RegClass} {vreg : ℕ} (inside : vreg < classes.length)
    (cls : RegClass) : (classes ++ [cls]).getD vreg .gpr = classes.getD vreg .gpr := by
  simp [List.getD, getElem?_append_left inside]

theorem OneClass.step {tier : LinearTier} (oneClass : OneClass tier state)
    (pending : state.pending ≠ []) : OneClass tier (state.step tier) := by
  obtain ⟨dests, sources, copies, emitted⟩ := oneClass
  have turn := step_turn tier pending
  generalize state.step tier = next at turn ⊢
  cases turn with
  | @emit before after copy isPending unread =>
    have still : ∀ other ∈ before ++ after, other ∈ state.pending := by
      intro other member
      rw [isPending]
      rcases mem_append.mp member with first | last
      · exact mem_append_left _ first
      · exact mem_append_right _ (mem_cons_of_mem _ last)
    have isCopy : copy ∈ state.pending := by
      rw [isPending]
      exact mem_append_right _ mem_cons_self
    refine ⟨fun other member => dests other (still other member),
      fun other member => sources other (still other member),
      fun other member => copies other (still other member), ?_⟩
    intro inst member
    rcases mem_append.mp member with old | new
    · exact emitted inst old
    · exact ⟨_, _, _, mem_singleton.mp new, dests copy isCopy, sources copy isCopy, rfl,
        (copies copy isCopy).symm⟩
  | @detour front rest isPending blocked =>
    have isFront : front ∈ state.pending := isPending ▸ mem_cons_self
    have longer : ∀ {vreg : ℕ}, vreg < state.vregClasses.length →
        vreg < (state.vregClasses ++ [state.classOf front.dest]).length := by
      intro vreg inside
      rw [length_append]
      exact Nat.lt_add_right _ inside
    have isLast : (state.vregClasses ++ [state.classOf front.dest]).getD
        state.vregClasses.length .gpr = state.classOf front.dest := by
      simp
    have last : state.vregClasses.length <
        (state.vregClasses ++ [state.classOf front.dest]).length := by simp
    refine ⟨?_, ?_, ?_, ?_⟩
    · intro other member
      obtain ⟨copy, isCopy, rfl⟩ := List.mem_map.mp member
      rw [RegMove.renamed_dest]
      exact longer (dests copy isCopy)
    · intro other member
      obtain ⟨copy, isCopy, rfl⟩ := List.mem_map.mp member
      rw [RegMove.renamed]
      split
      · exact last
      · exact longer (sources copy isCopy)
    · intro other member
      obtain ⟨copy, isCopy, rfl⟩ := List.mem_map.mp member
      have same := copies copy isCopy
      rw [RegMove.renamed_dest, classOf, classOf, classOf_grown (dests copy isCopy), RegMove.renamed]
      split
      case isTrue isSaved =>
        rw [isSaved] at same
        exact same.trans isLast.symm
      case isFalse => exact same.trans (classOf_grown (sources copy isCopy) _).symm
    · intro inst member
      rcases mem_append.mp member with old | new
      · obtain ⟨cls, dest, source, rfl, destInside, sourceInside, destClass, sourceClass⟩ :=
          emitted inst old
        exact ⟨cls, dest, source, rfl, longer destInside, longer sourceInside,
          (classOf_grown destInside _).trans destClass,
          (classOf_grown sourceInside _).trans sourceClass⟩
      · exact ⟨_, _, _, mem_singleton.mp new, last, longer (dests front isFront), isLast,
          classOf_grown (dests front isFront) _⟩

theorem OneClass.loop {tier : LinearTier} (oneClass : OneClass tier state) (fuel : ℕ) :
    OneClass tier (loop tier fuel state) := by
  induction fuel generalizing state with
  | zero => exact oneClass
  | succ fuel ih =>
    rw [CopyState.loop]
    split
    case isTrue => exact oneClass
    case isFalse more => exact ih (oneClass.step (by simpa using more))

end CopyState

open CopyState in
/-- The loop ends and its copies are a parallel copy; each connects registers
of one class when the requested copies do. -/
theorem emitParallelCopies_correct (tier : LinearTier) (vregClasses : List RegClass)
    {copies : List (RegMove ℕ)} (distinct : (copies.map RegMove.dest).Nodup)
    (made : ∀ copy ∈ copies, copy.dest < vregClasses.length ∧ copy.source < vregClasses.length)
    {fuel : ℕ} (enough : 2 * copies.length ≤ fuel) :
    let final := loop tier fuel (start vregClasses copies)
    final.pending = [] ∧
      (∀ (V : Type) (regs : ℕ → V),
        (∀ copy ∈ copies, execCopies regs final.emitted copy.dest = regs copy.source) ∧
          ∀ reg < vregClasses.length, reg ∉ copies.map RegMove.dest →
            execCopies regs final.emitted reg = regs reg) ∧
      ((∀ copy ∈ copies, vregClasses.getD copy.dest .gpr = vregClasses.getD copy.source .gpr) →
        OneClass tier final) := by
  intro final
  have kept : ∀ copy ∈ (start vregClasses copies).pending, copy ∈ copies :=
    fun copy member => mem_of_mem_filter member
  have finishes : final.pending = [] := by
    refine loop_finishes tier (length_filter_le _ _) enough ?_
    exact fun copy member => (made copy (kept copy member)).1
  refine ⟨finishes, ?_, ?_⟩
  · intro V regs
    have first : Follows vregClasses.length (together copies regs) regs
        (start vregClasses copies) :=
      ⟨.start distinct (fun copy member => (made copy member).1) regs, le_rfl,
        fun copy member => (made copy (kept copy member)).2⟩
    have last := (first.loop tier fuel).remaining
    rw [finishes] at last
    constructor
    · intro copy member
      rw [last.finished (made copy member).1, together_of_mem distinct regs member]
    · intro reg inside outside
      rw [last.finished inside, together_of_not_mem regs outside]
  · intro sameClass
    have first : OneClass tier (start vregClasses copies) :=
      ⟨fun copy member => (made copy (kept copy member)).1,
        fun copy member => (made copy (kept copy member)).2,
        fun copy member => sameClass copy (kept copy member), by simp [start]⟩
    exact first.loop fuel

/-- Two registers swapped and a third that reads one of them. -/
theorem emitParallelCopies_swap :
    let copies : List (RegMove ℕ) := [⟨0, 1⟩, ⟨1, 0⟩, ⟨2, 0⟩]
    let final := CopyState.loop .aarch64 6 (CopyState.start [.gpr, .gpr, .gpr] copies)
    final.emitted = [copyInst .aarch64 .gpr 2 0, copyInst .aarch64 .gpr 3 0,
        copyInst .aarch64 .gpr 0 1, copyInst .aarch64 .gpr 1 3] ∧
      ∀ regs : ℕ → ℕ, execCopies regs final.emitted 0 = regs 1 := by
  intro copies final
  have correct := @emitParallelCopies_correct .aarch64 [.gpr, .gpr, .gpr] copies
    (by decide) (by decide) 6 (by decide)
  exact ⟨by decide, fun regs => (correct.2.1 ℕ regs).1 ⟨0, 1⟩ (by decide)⟩

end Aburi.Backend
