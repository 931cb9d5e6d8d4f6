import Aburi.Air.Built
import Aburi.Air.SimplifyCfg
import Mathlib.Data.Prod.Lex

/-!
# Simplification of the control-flow graph ends

A round that changes something drops a block, or keeps the blocks and drops a
branch, or keeps both and takes the edges away from a block.  In the last case
the edges go to a block that has an edge of the same kind already.
-/

namespace Aburi.Air

open Aburi.Lib List Nat

variable {less : Function → Function → Prop}

namespace Function

variable {f g : Function}

/-- An instruction is in at most one list, once, and names the block of that list. -/
structure Owned (f : Function) : Prop where
  attached : ∀ b, ∀ i ∈ f.blockInsts b,
    f.isValidBlock b = true ∧ f.isValidInst i = true ∧ (f.inst i).block = b
  nodup : ∀ b, (f.blockInsts b).Nodup
  instsPos : 0 < f.insts.size

theorem Built.owned (built : f.Built) : f.Owned :=
  ⟨built.consistent.attached, built.consistent.instsNodup, built.consistent.instsBound.1⟩

/-- Operands, edges and the layout play no role in the ownership. -/
theorem Owned.congr (owned : f.Owned) (blocks : g.blocks = f.blocks)
    (size : g.insts.size = f.insts.size)
    (owner : ∀ i, (g.inst i).block = (f.inst i).block) : g.Owned := by
  have lists : ∀ b, g.blockInsts b = f.blockInsts b := fun b => by
    simp only [blockInsts, block, blocks]
  constructor
  · intro b i member
    rw [lists] at member
    obtain ⟨validBlock, validInst, owns⟩ := owned.attached b i member
    refine ⟨?_, ?_, (owner i).trans owns⟩
    · rwa [isValidBlock, blocks]
    · rwa [isValidInst, Slots.isValid, size]
  · intro b
    rw [lists]
    exact owned.nodup b
  · rw [size]
    exact owned.instsPos

theorem blockInsts_removeInst (owned : f.Owned) (i : InstId) (b : BlockId) :
    (f.removeInst i).blockInsts b = (f.blockInsts b).erase i := by
  by_cases same : b = (f.inst i).block
  · subst same
    simp [removeInst, blockInsts, block]
  · have unlisted : i ∉ f.blockInsts b := fun member => same (owned.attached b i member).2.2.symm
    rw [erase_of_not_mem unlisted]
    simp [removeInst, blockInsts, block, Slots.get_set_ne _ _ same]

theorem inst_removeInst_ne (f : Function) {i j : InstId} (differ : j ≠ i) :
    (f.removeInst i).inst j = f.inst j :=
  Slots.get_set_ne _ _ differ

theorem op_removeInst (f : Function) (i j : InstId) :
    ((f.removeInst i).inst j).op = (f.inst j).op := by
  by_cases same : j = i
  · subst same
    simp [removeInst, inst]
  · rw [inst_removeInst_ne f same]

theorem Owned.removeInst (owned : f.Owned) (i : InstId) : (f.removeInst i).Owned := by
  constructor
  · intro b j member
    rw [blockInsts_removeInst owned, (owned.nodup b).mem_erase_iff] at member
    rw [inst_removeInst_ne f member.1]
    exact owned.attached b j member.2
  · intro b
    rw [blockInsts_removeInst owned]
    exact (owned.nodup b).erase i
  · exact owned.instsPos

theorem not_mem_removeInst (owned : f.Owned) (i : InstId) (b : BlockId) :
    i ∉ (f.removeInst i).blockInsts b := by
  rw [blockInsts_removeInst owned]
  exact (owned.nodup b).not_mem_erase

theorem blockInsts_appendInst_self (f : Function) (b : BlockId) (i : InstId) :
    (f.appendInst b i).blockInsts b = f.blockInsts b ++ [i] := by
  simp [appendInst, blockInsts, block]

variable {b : BlockId}

theorem blockInsts_appendInst_ne (f : Function) {other : BlockId} (i : InstId) (differ : other ≠ b) :
    (f.appendInst b i).blockInsts other = f.blockInsts other := by
  simp [appendInst, blockInsts, block, Slots.get_set_ne _ _ differ]

theorem op_appendInst (f : Function) (b : BlockId) (i j : InstId) :
    ((f.appendInst b i).inst j).op = (f.inst j).op := by
  by_cases same : j = i
  · subst same
    simp [appendInst, inst]
  · simp [appendInst, inst, Slots.get_set_ne _ _ same]

theorem Owned.appendInst (owned : f.Owned) {i : InstId} (validBlock : f.isValidBlock b = true)
    (validInst : f.isValidInst i = true) (detached : ∀ other, i ∉ f.blockInsts other) :
    (f.appendInst b i).Owned := by
  have keeps : ∀ j, j ≠ i → (f.appendInst b i).inst j = f.inst j :=
    fun j differ => Slots.get_set_ne _ _ differ
  constructor
  · intro other j member
    by_cases same : other = b
    · subst same
      rw [blockInsts_appendInst_self, mem_append, mem_singleton] at member
      rcases member with old | rfl
      · rw [keeps j fun isNew => detached other (isNew ▸ old)]
        exact owned.attached other j old
      · exact ⟨validBlock, validInst, by simp [Function.appendInst, inst]⟩
    · rw [blockInsts_appendInst_ne f i same] at member
      rw [keeps j fun isNew => detached other (isNew ▸ member)]
      exact owned.attached other j member
  · intro other
    by_cases same : other = b
    · subst same
      rw [blockInsts_appendInst_self]
      rw [← concat_eq_append]
      exact (owned.nodup other).concat (detached other)
    · rw [blockInsts_appendInst_ne f i same]
      exact owned.nodup other
  · exact owned.instsPos

section Jumps

variable (f) (aux : Word) (loc : SrcLoc)

theorem makeInst_jump : f.makeInst .jump 0 [] aux loc =
    (f.insts.size, { f with insts := f.insts.push { op := .jump, aux, loc } }) := rfl

theorem isValidInst_jump {i : InstId} (isValid : f.isValidInst i = true) :
    (f.makeInst .jump 0 [] aux loc).2.isValidInst i = true := by
  obtain ⟨positive, bounded⟩ := Slots.isValid_iff.mp isValid
  exact Slots.isValid_iff.mpr ⟨positive, lt_succ_of_lt bounded⟩

theorem inst_jump_of_valid {i : InstId} (isValid : f.isValidInst i = true) :
    (f.makeInst .jump 0 [] aux loc).2.inst i = f.inst i :=
  Slots.get_push_of_valid _ _ (Slots.isValid_iff.mp isValid).2

variable {f}

theorem Owned.makeJump (owned : f.Owned) : (f.makeInst .jump 0 [] aux loc).2.Owned := by
  constructor
  · intro b i member
    obtain ⟨validBlock, validInst, owns⟩ := owned.attached b i member
    refine ⟨validBlock, isValidInst_jump f aux loc validInst, ?_⟩
    rw [inst_jump_of_valid f aux loc validInst]
    exact owns
  · exact owned.nodup
  · exact succ_pos _

theorem not_mem_makeJump (owned : f.Owned) (b : BlockId) : f.insts.size ∉ f.blockInsts b := by
  intro member
  exact lt_irrefl _ (Slots.isValid_iff.mp (owned.attached b _ member).2.1).2

end Jumps

theorem countP_lt {α : Type} {p q : α → Bool} {xs : List α} {a : α}
    (weaker : ∀ x ∈ xs, p x = true → q x = true) (member : a ∈ xs) (holds : q a = true)
    (fails : p a = false) : xs.countP p < xs.countP q := by
  induction xs with
  | nil => cases member
  | cons x xs ih =>
    have rest : ∀ y ∈ xs, p y = true → q y = true := fun y later => weaker y (.tail _ later)
    rw [countP_cons, countP_cons]
    cases member with
    | head =>
      have atMost := countP_mono_left rest
      rw [if_pos holds, if_neg (by simp [fails])]
      exact lt_succ_of_le atMost
    | tail _ later =>
      have fewer := ih rest later
      have head := weaker x (.head _)
      by_cases isP : p x = true
      · rw [if_pos isP, if_pos (head isP)]
        exact succ_lt_succ fewer
      · rw [if_neg isP]
        exact Nat.lt_of_lt_of_le fewer (Nat.le_add_right _ _)

/-- Whether a block ends with an instruction of the given kind. -/
def endsWith (f : Function) (op : Opcode) (b : BlockId) : Bool :=
  (f.lastInst? b).any fun term => (f.inst term).op = op

/-- The blocks that end with a branch on a condition. -/
def branches (f : Function) : ℕ := f.layout.countP (f.endsWith .brIf)

/-- What a function shares with the one that it came from by a new jump at
the end of a block. -/
structure EndsInJump (f g : Function) (b : BlockId) : Prop where
  owned : g.Owned
  layout : g.layout = f.layout
  jumps : g.endsWith .jump b = true
  others : ∀ other, other ≠ b → ∀ op, g.endsWith op other = f.endsWith op other

theorem mem_of_lastInst {term : InstId} (isLast : f.lastInst? b = some term) :
    term ∈ f.blockInsts b :=
  mem_of_getLast? isLast

theorem endsWith_iff {op : Opcode} :
    f.endsWith op b = true ↔ ∃ term, f.lastInst? b = some term ∧ (f.inst term).op = op := by
  simp [endsWith, Option.any_eq_true]

theorem replaceTerminatorWithJump_of_last {term : InstId} (isLast : f.lastInst? b = some term)
    (call : BlockCallId) :
    f.replaceTerminatorWithJump b call =
      ((f.removeInst term).makeInst .jump 0 [] (BitVec.ofNat 64 call) (f.inst term).loc).2.appendInst
        b (f.removeInst term).insts.size := by
  simp only [replaceTerminatorWithJump, isLast]
  rfl

theorem replaceTerminatorWithJump_spec (owned : f.Owned) {term : InstId}
    (isLast : f.lastInst? b = some term) (call : BlockCallId) :
    EndsInJump f (f.replaceTerminatorWithJump b call) b := by
  obtain ⟨validBlock, -, owns⟩ := owned.attached b term (mem_of_lastInst isLast)
  have removed := owned.removeInst term
  have made := removed.makeJump (BitVec.ofNat 64 call) (f.inst term).loc
  have fresh := not_mem_makeJump removed
  rw [replaceTerminatorWithJump_of_last isLast]
  constructor
  · apply made.appendInst validBlock ?_ fresh
    exact Slots.isValid_iff.mpr ⟨removed.instsPos, lt_succ_self _⟩
  · rfl
  · rw [endsWith_iff]
    refine ⟨(f.removeInst term).insts.size, ?_, ?_⟩
    · rw [lastInst?, blockInsts_appendInst_self]
      exact getLast?_concat
    · rw [op_appendInst, makeInst_jump]
      simp [inst]
  · intro other differ op
    have unlisted : term ∉ f.blockInsts other := by
      intro member
      exact differ ((owned.attached other term member).2.2.symm.trans owns)
    have listed := (blockInsts_removeInst owned term other).trans (erase_of_not_mem unlisted)
    rw [endsWith, lastInst?, blockInsts_appendInst_ne _ _ differ]
    have sameLast : ((f.removeInst term).makeInst .jump 0 [] (BitVec.ofNat 64 call)
        (f.inst term).loc).2.blockInsts other = f.blockInsts other := listed
    rw [sameLast, endsWith, lastInst?]
    cases isOther : (f.blockInsts other).getLast? with
    | none => rfl
    | some last =>
      have valid : (f.removeInst term).isValidInst last = true :=
        (owned.attached other last (mem_of_getLast? isOther)).2.1
      simp only [Option.any_some, op_appendInst, inst_jump_of_valid _ _ _ valid, op_removeInst]

theorem foldBranch_spec (owned : f.Owned) (b : BlockId) :
    f.foldBranch b = (f, false) ∨
      (f.foldBranch b).2 = true ∧ f.endsWith .brIf b = true ∧
        EndsInJump f (f.foldBranch b).1 b := by
  rw [foldBranch]
  split
  case h_1 => exact .inl rfl
  case h_2 term isLast =>
    have spec := replaceTerminatorWithJump_spec owned isLast
    dsimp only
    split
    case isTrue => exact .inl rfl
    case isFalse isBranch =>
      have branch : f.endsWith .brIf b = true :=
        endsWith_iff.2 ⟨term, isLast, not_not.mp isBranch⟩
      split
      case isTrue => exact .inr ⟨rfl, branch, spec _⟩
      case isFalse =>
        split
        case isTrue => exact .inr ⟨rfl, branch, spec _⟩
        case isFalse => exact .inl rfl

theorem branches_lt (member : b ∈ f.layout) (branch : f.endsWith .brIf b = true)
    (ends : EndsInJump f g b) : g.branches < f.branches := by
  have gone : g.endsWith .brIf b = false := by
    obtain ⟨term, isLast, isJump⟩ := endsWith_iff.1 ends.jumps
    simp [endsWith, isLast, isJump]
  rw [branches, branches, ends.layout]
  apply countP_lt ?_ member branch gone
  intro other _ isBranch
  by_cases same : other = b
  · rw [same, gone] at isBranch
    cases isBranch
  · rwa [ends.others other same] at isBranch

/-- What a part of a round leaves: either nothing has changed, or a function
that `less` says is smaller. -/
def Steps (less : Function → Function → Prop) (f : Function) (result : Function × Bool) : Prop :=
  result = (f, false) ∨ result.2 = true ∧ result.1.Owned ∧ less result.1 f

/-- The blocks stay and a branch goes. -/
def DropsBranch (g f : Function) : Prop := g.layout = f.layout ∧ g.branches < f.branches

theorem foldBranch_steps (owned : f.Owned) (member : b ∈ f.layout) :
    Steps DropsBranch f (f.foldBranch b) := by
  rcases foldBranch_spec owned b with same | ⟨changed, branch, ends⟩
  · exact .inl same
  · exact .inr ⟨changed, ends.owned, ends.layout, branches_lt member branch ends⟩

theorem foldBranches_steps (owned : f.Owned) : Steps DropsBranch f f.foldBranches := by
  -- the blocks still to try, after the function has changed or not
  have run : ∀ (blocks : List BlockId) (g : Function) (changed : Bool), blocks ⊆ f.layout →
      Steps DropsBranch f (g, changed) →
      Steps DropsBranch f (blocks.foldl (fun state block =>
        let folded := state.1.foldBranch block
        (folded.1, state.2 || folded.2)) (g, changed)) := by
    intro blocks
    induction blocks with
    | nil => exact fun _ _ _ steps => steps
    | cons block rest ih =>
      intro g changed listed steps
      have member : block ∈ f.layout := listed (.head _)
      apply ih _ _ fun b later => listed (.tail _ later)
      rcases steps with same | ⟨isChanged, gOwned, layout, fewer⟩
      · cases same
        rcases foldBranch_steps owned member with same | ⟨isChanged, gOwned, drops⟩
        · rw [same]
          exact .inl rfl
        · exact .inr ⟨isChanged, gOwned, drops⟩
      · dsimp only at isChanged gOwned layout fewer
        subst isChanged
        rcases foldBranch_steps gOwned (layout ▸ member) with same | ⟨-, hOwned, stays, drops⟩
        · rw [same]
          exact .inr ⟨rfl, gOwned, layout, fewer⟩
        · exact .inr ⟨rfl, hOwned, stays.trans layout, drops.trans fewer⟩
  exact run f.layout f false (List.Subset.refl _) (.inl rfl)

/-- Whether an edge that is not of a switch goes to a block. -/
def hasPlainEdge (f : Function) (b : BlockId) : Bool :=
  (f.predsOf b).any fun edge => edge.terminator ≠ .switch

def hasEdge (f : Function) (b : BlockId) : Bool := !(f.predsOf b).isEmpty

/-- The blocks with an edge, and once more those with a plain one. -/
def targeted (f : Function) : ℕ :=
  f.layout.countP f.hasPlainEdge + f.layout.countP f.hasEdge

/-- Only edges change, and fewer blocks have one. -/
def DropsTarget (g f : Function) : Prop :=
  g.layout = f.layout ∧ g.branches = f.branches ∧ g.targeted < f.targeted

theorem mem_predsOf {edge : PredEdge} :
    edge ∈ f.predsOf b ↔ edge ∈ f.edges ∧ (f.blockCall edge.call).target = b := by
  simp [predsOf]

theorem hasPlainEdge_iff : f.hasPlainEdge b = true ↔
    ∃ edge ∈ f.predsOf b, edge.terminator ≠ .switch := by
  simp [hasPlainEdge]

theorem hasEdge_iff : f.hasEdge b = true ↔ ∃ edge, edge ∈ f.predsOf b := by
  simp [hasEdge, eq_nil_iff_forall_not_mem]

theorem redirectEdge_target (f : Function) (block target : BlockId) (onwardArgs : List ValueId)
    (edge : PredEdge) (call : BlockCallId) :
    ((f.redirectEdge block target onwardArgs edge).blockCall call).target =
      if edge.call = call then target else (f.blockCall call).target := by
  by_cases same : edge.call = call
  · simp [redirectEdge, setBlockCallTarget, setBlockCallArgs, updateBlockCall, blockCall, same]
  · simp [redirectEdge, setBlockCallTarget, setBlockCallArgs, updateBlockCall, blockCall, same,
      Slots.get_set_ne _ _ (Ne.symm same)]

/-- Edges that are not skipped go to the target, all others stay. -/
theorem redirectEdges_spec (block target : BlockId) (onwardArgs : List ValueId) (f : Function)
    (edges : List PredEdge) :
    ∃ calls, redirectEdges block target onwardArgs f edges =
        ({ f with blockCalls := calls }, edges.any fun edge => !f.skipsEdge block onwardArgs edge) ∧
      ∀ call, (calls.get call).target =
        if ∃ edge ∈ edges, f.skipsEdge block onwardArgs edge = false ∧ edge.call = call
        then target else (f.blockCall call).target := by
  induction edges generalizing f with
  | nil => exact ⟨f.blockCalls, rfl, fun call => by simp [blockCall]⟩
  | cons edge rest ih =>
    rw [redirectEdges]
    cases skips : f.skipsEdge block onwardArgs edge with
    | true =>
      obtain ⟨calls, result, targets⟩ := ih f
      refine ⟨calls, ?_, fun call => ?_⟩
      · simpa [skips] using result
      · rw [targets call]
        simp [skips]
    | false =>
      obtain ⟨calls, result, targets⟩ := ih (f.redirectEdge block target onwardArgs edge)
      have sameSkips : ∀ other, (f.redirectEdge block target onwardArgs edge).skipsEdge block
          onwardArgs other = f.skipsEdge block onwardArgs other := fun _ => rfl
      refine ⟨calls, ?_, fun call => ?_⟩
      · rw [if_neg Bool.false_ne_true, result]
        simp only [any_cons, skips]
        rfl
      · rw [targets call, redirectEdge_target]
        simp only [sameSkips, mem_cons, exists_eq_or_imp, skips, true_and]
        by_cases same : edge.call = call
        · simp [same]
        · simp [same]

variable {block : BlockId}

theorem onwardCall_spec {onward : BlockCallId} (isOnward : f.onwardCall? block = some onward) :
    ⟨block, onward, .jump⟩ ∈ f.edgesOf block ∧ (f.blockCall onward).target ≠ block := by
  rw [onwardCall?] at isOnward
  split at isOnward
  case h_1 => cases isOnward
  case h_2 term isLast =>
    split at isOnward
    case isFalse => cases isOnward
    case isTrue facts =>
      obtain ⟨-, isJump, away⟩ := facts
      cases isOnward
      refine ⟨?_, away⟩
      simp [edgesOf, isLast, successors, isJump]

/-- The edges into an empty block go to a block that has an edge of each kind
already, and none of one kind is left. -/
theorem redirectEdges_drops {onward : BlockCallId} (listed : block ∈ f.layout)
    (isOnward : f.onwardCall? block = some onward) (onwardArgs : List ValueId) {edge : PredEdge}
    (member : edge ∈ f.predsOf block) (redirected : f.skipsEdge block onwardArgs edge = false) :
    DropsTarget (redirectEdges block (f.blockCall onward).target onwardArgs f
      (f.predsOf block)).1 f := by
  obtain ⟨ownEdge, away⟩ := onwardCall_spec isOnward
  obtain ⟨calls, result, targets⟩ :=
    redirectEdges_spec block (f.blockCall onward).target onwardArgs f (f.predsOf block)
  rw [result]
  generalize isNext : (f.blockCall onward).target = next at targets away
  have own : ⟨block, onward, .jump⟩ ∈ f.predsOf next :=
    mem_predsOf.2 ⟨mem_flatMap.mpr ⟨block, listed, ownEdge⟩, isNext⟩
  have mem_after : ∀ {b : BlockId} {other : PredEdge},
      other ∈ Function.predsOf { f with blockCalls := calls } b →
        other ∈ f.edges ∧ (calls.get other.call).target = b := fun isPred => mem_predsOf.1 isPred
  -- an edge of the new function is an old one, or goes to the target
  have origin : ∀ {b : BlockId} {other : PredEdge},
      other ∈ Function.predsOf { f with blockCalls := calls } b →
        other ∈ f.predsOf b ∨ b = next := by
    intro b other isPred
    obtain ⟨isEdge, isTarget⟩ := mem_after isPred
    rw [targets] at isTarget
    split at isTarget
    case isTrue => exact .inr isTarget.symm
    case isFalse => exact .inl (mem_predsOf.2 ⟨isEdge, isTarget⟩)
  have remaining : ∀ {other : PredEdge},
      other ∈ Function.predsOf { f with blockCalls := calls } block →
        f.skipsEdge block onwardArgs other = true := by
    intro other isPred
    obtain ⟨isEdge, isTarget⟩ := mem_after isPred
    have old := (origin isPred).resolve_right (Ne.symm away)
    by_contra notSkipped
    rw [targets, if_pos ⟨other, old, Bool.not_eq_true _ ▸ notSkipped, rfl⟩] at isTarget
    exact away isTarget
  have plainOrigin : ∀ b, Function.hasPlainEdge { f with blockCalls := calls } b = true →
      f.hasPlainEdge b = true := by
    intro b isPlain
    obtain ⟨other, isPred, notSwitch⟩ := hasPlainEdge_iff.1 isPlain
    rcases origin isPred with old | rfl
    · exact hasPlainEdge_iff.2 ⟨other, old, notSwitch⟩
    · exact hasPlainEdge_iff.2 ⟨_, own, nofun⟩
  have edgeOrigin : ∀ b, Function.hasEdge { f with blockCalls := calls } b = true →
      f.hasEdge b = true := by
    intro b has
    obtain ⟨other, isPred⟩ := hasEdge_iff.1 has
    rcases origin isPred with old | rfl
    · exact hasEdge_iff.2 ⟨other, old⟩
    · exact hasEdge_iff.2 ⟨_, own⟩
  refine ⟨rfl, rfl, ?_⟩
  rw [targeted, targeted]
  by_cases isSwitch : edge.terminator = .switch
  · -- a switch edge is redirected only when no edge is skipped
    have noneSkipped : ∀ other, f.skipsEdge block onwardArgs other = false := by
      intro other
      simp only [skipsEdge, isSwitch, true_and, decide_eq_false_iff_not] at redirected
      simp [skipsEdge, redirected]
    apply Nat.add_lt_add_of_le_of_lt (countP_mono_left fun b _ => plainOrigin b)
    apply countP_lt (fun b _ => edgeOrigin b) listed (hasEdge_iff.2 ⟨edge, member⟩)
    rw [Bool.eq_false_iff]
    intro has
    obtain ⟨other, isPred⟩ := hasEdge_iff.1 has
    exact Bool.eq_false_iff.mp (noneSkipped other) (remaining isPred)
  · apply Nat.add_lt_add_of_lt_of_le ?_ (countP_mono_left fun b _ => edgeOrigin b)
    apply countP_lt (fun b _ => plainOrigin b) listed (hasPlainEdge_iff.2 ⟨edge, member, isSwitch⟩)
    rw [Bool.eq_false_iff]
    intro isPlain
    obtain ⟨other, isPred, notSwitch⟩ := hasPlainEdge_iff.1 isPlain
    have skipped := remaining isPred
    simp only [skipsEdge, decide_eq_true_eq] at skipped
    exact notSwitch skipped.1

theorem redirectEdges_skipped {onwardArgs : List ValueId} {edges : List PredEdge}
    (skipped : ∀ edge ∈ edges, f.skipsEdge block onwardArgs edge = true) (target : BlockId) :
    redirectEdges block target onwardArgs f edges = (f, false) := by
  induction edges with
  | nil => rfl
  | cons edge rest ih =>
    rw [redirectEdges, if_pos (skipped edge (.head _))]
    exact ih fun other later => skipped other (.tail _ later)

theorem foldForwardingBlock_steps (owned : f.Owned) (listed : block ∈ f.layout) :
    Steps DropsTarget f (f.foldForwardingBlock f.collectCfgFacts block) := by
  rw [foldForwardingBlock]
  split
  case isTrue => exact .inl rfl
  case isFalse =>
    split
    case h_1 => exact .inl rfl
    case h_2 onward isOnward =>
      dsimp only
      split
      case isTrue => exact .inl rfl
      case isFalse =>
        by_cases skipped : ∀ edge ∈ f.predsOf block,
            f.skipsEdge block (f.blockCallArgs onward) edge = true
        · exact .inl (redirectEdges_skipped skipped _)
        · push Not at skipped
          obtain ⟨edge, member, isKept⟩ := skipped
          have redirected := Bool.eq_false_iff.mpr isKept
          have drops := redirectEdges_drops listed isOnward _ member redirected
          obtain ⟨calls, result, -⟩ := redirectEdges_spec block (f.blockCall onward).target
            (f.blockCallArgs onward) f (f.predsOf block)
          refine .inr ⟨?_, ?_, drops⟩
          · show (redirectEdges _ _ _ f (f.predsOf block)).2 = true
            rw [result]
            exact List.any_eq_true.mpr ⟨edge, member, by simp [redirected]⟩
          · show (redirectEdges _ _ _ f (f.predsOf block)).1.Owned
            rw [result]
            exact owned.congr rfl rfl fun _ => rfl

def DropsBlock (g f : Function) : Prop := g.layout.length < f.layout.length

/-- A function with the same layout whose instructions are owned. -/
structure Relisted (f g : Function) : Prop where
  owned : g.Owned
  layout : g.layout = f.layout
  blocks : g.blocks.size = f.blocks.size
  insts : g.insts.size = f.insts.size

theorem Relisted.refl (owned : f.Owned) : Relisted f f := ⟨owned, rfl, rfl, rfl⟩

theorem Relisted.trans {h : Function} (first : Relisted f g) (second : Relisted g h) :
    Relisted f h :=
  ⟨second.owned, second.layout.trans first.layout, second.blocks.trans first.blocks,
    second.insts.trans first.insts⟩

/-- A loop whose passes keep the layout and the ownership. -/
theorem Relisted.foldl {α : Type} {step : Function → α → Function} {xs : List α}
    (keeps : ∀ x ∈ xs, ∀ h, Relisted f h → Relisted h (step h x)) (start : Relisted f g) :
    Relisted f (xs.foldl step g) := by
  induction xs generalizing g with
  | nil => exact start
  | cons x xs ih =>
    apply ih (fun y later => keeps y (.tail _ later))
    exact start.trans (keeps x (.head _) g start)

theorem Relisted.renameParams (owned : f.Owned) (block : BlockId) (args : List ValueId) :
    Relisted f (f.renameParams block args) := by
  apply Relisted.foldl ?_ (.refl owned)
  rintro ⟨param, index⟩ - g renamed
  exact ⟨renamed.owned.congr rfl rfl fun _ => rfl, rfl, rfl, rfl⟩

theorem Relisted.removeTerminator (owned : f.Owned) (block : BlockId) :
    Relisted f (f.removeTerminator block) := by
  rw [Function.removeTerminator]
  split
  · exact .refl owned
  · exact ⟨owned.removeInst _, rfl, rfl, rfl⟩

theorem Relisted.moveInsts (owned : f.Owned) {source : BlockId}
    (validSource : f.isValidBlock source = true) (block : BlockId) :
    Relisted f (f.moveInsts source block) := by
  apply Relisted.foldl ?_ (.refl owned)
  intro i member g moved
  have valid := (owned.attached block i member).2.1
  refine ⟨(moved.owned.removeInst i).appendInst ?_ ?_ (not_mem_removeInst moved.owned i), rfl, rfl,
    rfl⟩
  · rw [isValidBlock, Slots.isValid] at validSource ⊢
    exact moved.blocks.symm ▸ validSource
  · rw [isValidInst, Slots.isValid] at valid ⊢
    exact moved.insts.symm ▸ valid

theorem removeBlock_length (listed : block ∈ f.layout) :
    (f.removeBlock block).layout.length < f.layout.length := by
  rw [removeBlock, length_erase_of_mem listed]
  exact sub_one_lt_of_lt (length_pos_of_mem listed)

/-- The source of an edge has a terminator, which owns up to its block. -/
theorem isValidBlock_source (owned : f.Owned) {edge : PredEdge} (isEdge : edge ∈ f.edges) :
    f.isValidBlock edge.source = true := by
  obtain ⟨block, -, ofBlock⟩ := mem_flatMap.mp isEdge
  rw [edgesOf] at ofBlock
  split at ofBlock
  case h_1 => cases ofBlock
  case h_2 term isLast =>
    obtain ⟨call, -, rfl⟩ := List.mem_map.mp ofBlock
    exact (owned.attached block term (mem_of_lastInst isLast)).1

theorem mergeIntoPredecessor_steps (owned : f.Owned) (listed : block ∈ f.layout) :
    Steps DropsBlock f (f.mergeIntoPredecessor f.collectCfgFacts block) := by
  rw [mergeIntoPredecessor]
  split
  case isTrue => exact .inl rfl
  case isFalse =>
    split
    case h_2 => exact .inl rfl
    case h_1 edge isOnly =>
      split
      case isTrue => exact .inl rfl
      case isFalse =>
        have isPred : edge ∈ f.collectCfgFacts.preds block := isOnly ▸ mem_singleton_self _
        have valid := isValidBlock_source owned (mem_predsOf.1 isPred).1
        have renamed := Relisted.renameParams owned block (f.blockCallArgs edge.call)
        have opened := renamed.trans (.removeTerminator renamed.owned edge.source)
        rw [isValidBlock, Slots.isValid, ← opened.blocks] at valid
        have merged := opened.trans (.moveInsts opened.owned valid block)
        refine .inr ⟨rfl, merged.owned.congr rfl rfl fun _ => rfl, ?_⟩
        have shorter := removeBlock_length (merged.layout ▸ listed)
        rwa [merged.layout] at shorter

theorem removeBlocks_le (f : Function) (blocks : List BlockId) :
    (blocks.foldl removeBlock f).layout.length ≤ f.layout.length := by
  induction blocks generalizing f with
  | nil => exact le_rfl
  | cons block rest ih => exact (ih _).trans length_erase_le

theorem removeBlocks_owned (owned : f.Owned) (blocks : List BlockId) :
    (blocks.foldl removeBlock f).Owned := by
  induction blocks generalizing f with
  | nil => exact owned
  | cons block rest ih => exact ih (owned.congr rfl rfl fun _ => rfl)

theorem targetsOf_of_invalid (owned : f.Owned) (invalid : block ∉ Finset.range f.blocks.size) :
    f.targetsOf block = [] := by
  rw [targetsOf, edgesOf]
  cases isLast : f.lastInst? block with
  | none => rfl
  | some term =>
    have valid := (owned.attached block term (mem_of_lastInst isLast)).1
    exact absurd (Finset.mem_range.mpr (Slots.isValid_iff.mp valid).2) invalid

/-- The search for the reachable blocks ends, and what it does not find goes. -/
theorem removeUnreachableBlocks_steps (owned : f.Owned) (facts : CfgFacts) :
    ∃ result bound, (∀ fuel, bound ≤ fuel → f.removeUnreachableBlocks fuel facts = some result) ∧
      Steps DropsBlock f result := by
  obtain ⟨reachable, ends⟩ := @closure_ends _ _ f.targetsOf (Finset.range f.blocks.size)
    (fun _ invalid => targetsOf_of_invalid owned invalid) _ []
    (facts.protectedBlocks.reverse ++ [f.entryBlock]) (lt_succ_self _)
  generalize succ _ = bound at ends
  refine ⟨((f.layout.filter (· ∉ reachable)).foldl removeBlock f,
    !(f.layout.filter (· ∉ reachable)).isEmpty), bound, ?_, ?_⟩
  · intro fuel enough
    rw [removeUnreachableBlocks, ends fuel enough]
    rfl
  · cases isUnreachable : f.layout.filter (· ∉ reachable) with
    | nil => exact .inl rfl
    | cons block rest =>
      have member : block ∈ f.layout.filter (· ∉ reachable) := isUnreachable ▸ .head _
      refine .inr ⟨rfl, removeBlocks_owned owned _, ?_⟩
      calc ((block :: rest).foldl removeBlock f).layout.length
        _ ≤ (f.removeBlock block).layout.length := removeBlocks_le _ rest
        _ < f.layout.length := removeBlock_length (mem_filter.mp member).1

/-- The blocks, the branches and the blocks with edges, in the order in which
they count. -/
def size (f : Function) : ℕ × ℕ × ℕ := (f.layout.length, f.branches, f.targeted)

def Smaller (g f : Function) : Prop :=
  Prod.Lex (· < ·) (Prod.Lex (· < ·) (· < ·)) g.size f.size

theorem smaller_wellFounded : WellFounded Smaller :=
  InvImage.wf size (WellFounded.prod_lex wellFounded_lt (WellFounded.prod_lex wellFounded_lt
    wellFounded_lt))

theorem DropsBlock.smaller (drops : DropsBlock g f) : Smaller g f := .left _ _ drops

theorem DropsBranch.smaller (drops : DropsBranch g f) : Smaller g f := by
  rw [Smaller, size, drops.1]
  exact .right _ (.left _ _ drops.2)

theorem DropsTarget.smaller (drops : DropsTarget g f) : Smaller g f := by
  rw [Smaller, size, drops.1, drops.2.1]
  exact .right _ (.right _ drops.2.2)

theorem Steps.mono {more : Function → Function → Prop} {result : Function × Bool}
    (steps : Steps less f result) (weaker : ∀ {g}, less g f → more g f) : Steps more f result := by
  rcases steps with same | ⟨changed, owned, isLess⟩
  · exact .inl same
  · exact .inr ⟨changed, owned, weaker isLess⟩

end Function

open Aburi.Air.Function

variable {f : Function}

theorem firstChange_steps {step : Function → BlockId → Function × Bool} {blocks : List BlockId}
    (each : ∀ block ∈ blocks, Steps less f (step f block)) :
    Steps less f (firstChange step f blocks) := by
  induction blocks with
  | nil => exact .inl rfl
  | cons block rest ih =>
    rw [firstChange]
    rcases each block (.head _) with same | ⟨changed, owned, isLess⟩
    · rw [same]
      exact ih fun other later => each other (.tail _ later)
    · rw [if_pos changed]
      exact .inr ⟨changed, owned, isLess⟩

theorem simplifyCfgRound_steps (owned : f.Owned) :
    ∃ result bound, (∀ fuel, bound ≤ fuel → simplifyCfgRound fuel f = some result) ∧
      Steps Smaller f result := by
  rcases foldBranches_steps owned with branched | ⟨changed, next⟩
  · have forwards : Steps DropsTarget f
        (firstChange (·.foldForwardingBlock f.collectCfgFacts) f f.layout) :=
      firstChange_steps fun block listed => foldForwardingBlock_steps owned listed
    rcases forwards with forwarded | ⟨changed, next⟩
    · have merges : Steps DropsBlock f
          (firstChange (·.mergeIntoPredecessor f.collectCfgFacts) f f.layout) :=
        firstChange_steps fun block listed => mergeIntoPredecessor_steps owned listed
      rcases merges with merged | ⟨changed, next⟩
      · obtain ⟨result, bound, ends, steps⟩ := removeUnreachableBlocks_steps owned f.collectCfgFacts
        refine ⟨result, bound, fun fuel enough => ?_, steps.mono (·.smaller)⟩
        simp [simplifyCfgRound, branched, forwarded, merged, ends fuel enough]
      · refine ⟨_, 0, fun fuel _ => ?_, .inr ⟨changed, next.1, next.2.smaller⟩⟩
        simp [simplifyCfgRound, branched, forwarded, changed]
    · refine ⟨_, 0, fun fuel _ => ?_, .inr ⟨changed, next.1, next.2.smaller⟩⟩
      simp [simplifyCfgRound, branched, changed]
  · refine ⟨_, 0, fun fuel _ => ?_, .inr ⟨changed, next.1, next.2.smaller⟩⟩
    simp [simplifyCfgRound, changed]

theorem runSimplifyCfg_ends (owned : f.Owned) :
    ∃ result bound, ∀ fuel, bound ≤ fuel → runSimplifyCfg fuel f = some result := by
  induction f using smaller_wellFounded.induction with
  | _ f ih =>
    obtain ⟨round, bound, ends, steps⟩ := simplifyCfgRound_steps owned
    rcases steps with same | ⟨changed, roundOwned, isSmaller⟩
    · refine ⟨round, bound + 1, fun fuel enough => ?_⟩
      cases fuel with
      | zero => exact absurd enough (not_succ_le_zero _)
      | succ fuel =>
        have atRound := ends (fuel + 1) (le_of_succ_le enough)
        simp [runSimplifyCfg, atRound, same]
    · obtain ⟨rest, restBound, restEnds⟩ := ih round.1 isSmaller roundOwned
      refine ⟨(rest.1, true), max bound restBound + 1, fun fuel enough => ?_⟩
      cases fuel with
      | zero => exact absurd enough (not_succ_le_zero _)
      | succ fuel =>
        have both := max_le_iff.mp (le_of_succ_le_succ enough)
        have atRound := ends (fuel + 1) (le_succ_of_le both.1)
        simp [runSimplifyCfg, atRound, changed, restEnds fuel both.2]

/-- Whatever the blocks of a function forward to, the rounds come to an end. -/
theorem runSimplifyCfg_terminates (built : f.Built) :
    ∃ g changed bound, ∀ fuel, bound ≤ fuel → runSimplifyCfg fuel f = some (g, changed) := by
  obtain ⟨⟨g, changed⟩, bound, ends⟩ := runSimplifyCfg_ends built.owned
  exact ⟨g, changed, bound, ends⟩

def cycleBlocks : Function :=
  let f := (Function.createBlock { name := "cycle", sig := 1 } []).2
  let f := (f.createBlock []).2
  let f := (f.createBlock []).2
  let f := (f.makeBlockCall 2 []).2
  let f := (f.makeBlockCall 3 []).2
  (f.makeBlockCall 2 []).2

/-- The entry jumps to the first of two empty blocks that jump to each other. -/
def forwardingCycle : Function :=
  let f := (cycleBlocks.makeInst .jump 0 [] 1).2.appendInst 1 1
  let f := (f.makeInst .jump 0 [] 2).2.appendInst 2 2
  (f.makeInst .jump 0 [] 3).2.appendInst 3 3

theorem forwardingCycle_built : forwardingCycle.Built := by
  have blocks : cycleBlocks.Built := by
    refine .makeBlockCall _ (.makeBlockCall _ (.makeBlockCall _ (.createBlock _ (.createBlock _
      (.createBlock _ (.new _ _) ?_) ?_) ?_) ?_) ?_) ?_ <;> decide
  refine .appendInst (.makeInst _ _ _ _ _ _ _ (.appendInst (.makeInst _ _ _ _ _ _ _ (.appendInst
    (.makeInst _ _ _ _ _ _ _ blocks ?_ ?_) ?_ ?_ ?_) ?_ ?_) ?_ ?_ ?_) ?_ ?_) ?_ ?_ ?_ <;> decide

theorem forwardingCycle_terminates :
    ∃ g changed bound, ∀ fuel, bound ≤ fuel →
      runSimplifyCfg fuel forwardingCycle = some (g, changed) :=
  runSimplifyCfg_terminates forwardingCycle_built

end Aburi.Air
