import Aburi.Air.Dominators
import Aburi.Lib.Cfg

/-!
# Soundness of the dominator tree

A positive answer of the dominance query is right: the first block lies on
every path from the entry to the second.  The argument needs the table of
immediate dominators only at the fixpoint, where each entry is an ancestor of
every predecessor of its block.
-/

namespace Aburi.Air.DominatorTree

open Aburi.Lib List Option

variable {f : Function} {rpo : List BlockId} {idom : BlockId → BlockId}

/-- What the search knows in the middle of its run. -/
structure SearchInvariant (f : Function) (visited : List BlockId)
    (stack : List (BlockId × List BlockId)) (rpo : List BlockId) : Prop where
  placed : ∀ block ∈ visited, block ∈ rpo ∨ block ∈ stack.map Prod.fst
  finished : ∀ block ∈ rpo, ∀ succ ∈ f.successorBlocks block, succ ∈ visited
  pending : ∀ entry ∈ stack, ∀ succ ∈ f.successorBlocks entry.1, succ ∈ visited ∨ succ ∈ entry.2

variable {visited : List BlockId} {block : BlockId} {stack : List (BlockId × List BlockId)}

theorem SearchInvariant.finish (holds : SearchInvariant f visited ((block, []) :: stack) rpo) :
    SearchInvariant f visited stack (block :: rpo) where
  placed := by
    intro other seen
    rcases holds.placed other seen with inRpo | onStack
    · exact .inl (mem_cons_of_mem _ inRpo)
    · rcases mem_cons.mp onStack with top | below
      · exact .inl (top ▸ mem_cons_self)
      · exact .inr below
  finished := by
    intro other inRpo succ edge
    rcases mem_cons.mp inRpo with top | before
    · subst top
      rcases holds.pending _ mem_cons_self succ edge with seen | rest
      · exact seen
      · cases rest
    · exact holds.finished other before succ edge
  pending := fun entry onStack => holds.pending entry (mem_cons_of_mem _ onStack)

section

variable {rest : List BlockId} {succ : BlockId}
  (holds : SearchInvariant f visited ((block, succ :: rest) :: stack) rpo)
include holds

theorem SearchInvariant.skip (seen : succ ∈ visited) :
    SearchInvariant f visited ((block, rest) :: stack) rpo where
  placed := by simpa using holds.placed
  finished := holds.finished
  pending := by
    intro entry onStack next edge
    rcases mem_cons.mp onStack with top | below
    · subst top
      rcases holds.pending _ mem_cons_self next edge with before | later
      · exact .inl before
      · rcases mem_cons.mp later with same | later
        · exact .inl (same ▸ seen)
        · exact .inr later
    · exact holds.pending entry (mem_cons_of_mem _ below) next edge

theorem SearchInvariant.visit :
    SearchInvariant f (succ :: visited)
      ((succ, f.successorBlocks succ) :: (block, rest) :: stack) rpo where
  placed := by
    intro other seen
    rcases mem_cons.mp seen with same | before
    · subst same
      exact .inr (by simp)
    · rcases holds.placed other before with inRpo | onStack
      · exact .inl inRpo
      · exact .inr (mem_cons_of_mem _ (by simpa using onStack))
  finished := fun other inRpo next edge =>
    mem_cons_of_mem _ (holds.finished other inRpo next edge)
  pending := by
    intro entry onStack next edge
    rcases mem_cons.mp onStack with top | onStack
    · subst top
      exact .inr edge
    rcases mem_cons.mp onStack with second | below
    · subst second
      rcases holds.pending _ mem_cons_self next edge with before | later
      · exact .inl (mem_cons_of_mem _ before)
      · rcases mem_cons.mp later with same | later
        · exact .inl (same ▸ mem_cons_self)
        · exact .inr later
    · rcases holds.pending entry (mem_cons_of_mem _ below) next edge with
        before | later
      · exact .inl (mem_cons_of_mem _ before)
      · exact .inr later

end

variable {fuel : ℕ}

theorem search_closed {rpo found : List BlockId} (holds : SearchInvariant f visited stack rpo)
    (done : search f fuel visited stack rpo = some found) :
    (∀ block ∈ visited, block ∈ found) ∧
      ∀ block ∈ found, ∀ succ ∈ f.successorBlocks block, succ ∈ found := by
  induction fuel generalizing visited stack rpo with
  | zero => cases done
  | succ fuel ih =>
    match stack with
    | [] =>
      cases done
      have all : ∀ block ∈ visited, block ∈ found := by
        intro block seen
        rcases holds.placed block seen with inRpo | onStack
        · exact inRpo
        · cases onStack
      exact ⟨all, fun block inRpo succ edge =>
        all succ (holds.finished block inRpo succ edge)⟩
    | (block, []) :: stack => exact ih holds.finish done
    | (block, succ :: rest) :: stack =>
      rw [search] at done
      split at done
      case isTrue seen => exact ih (holds.skip seen) done
      case isFalse =>
        obtain ⟨visitedFound, closed⟩ := ih holds.visit done
        exact ⟨fun other seen => visitedFound other (mem_cons_of_mem _ seen), closed⟩

theorem rpoOf_closed (done : rpoOf f fuel = some rpo) :
    f.entryBlock ∈ rpo ∧ ∀ block ∈ rpo, ∀ succ ∈ f.successorBlocks block, succ ∈ rpo := by
  have holds : SearchInvariant f [f.entryBlock]
      [(f.entryBlock, f.successorBlocks f.entryBlock)] [] := by
    constructor
    · intro block seen
      exact .inr (by simpa using seen)
    · intro block inRpo
      cases inRpo
    · intro entry onStack succ edge
      rw [mem_singleton.mp onStack] at edge ⊢
      exact .inr edge
  obtain ⟨visitedFound, closed⟩ := search_closed holds done
  exact ⟨visitedFound _ mem_cons_self, closed⟩

theorem mem_predecessors {pred : BlockId} (inRpo : pred ∈ rpo)
    (edge : block ∈ f.successorBlocks pred) :
    pred ∈ predecessors f rpo block :=
  mem_flatMap.mpr ⟨pred, inRpo, mem_filterMap.mpr ⟨block, edge, by simp⟩⟩

theorem climb_ancestor {bound top : BlockId} (done : climb rpo idom fuel block bound = some top) :
    ∃ steps, idom^[steps] block = top := by
  induction fuel generalizing block with
  | zero => cases done
  | succ fuel ih =>
    rw [climb] at done
    split at done
    · obtain ⟨steps, reached⟩ := ih done
      exact ⟨steps + 1, reached⟩
    · cases done
      exact ⟨0, rfl⟩

theorem intersect_ancestor {a b common : BlockId}
    (done : intersect rpo idom fuel a b = some common) :
    (∃ steps, idom^[steps] a = common) ∧ ∃ steps, idom^[steps] b = common := by
  induction fuel generalizing a b with
  | zero => cases done
  | succ fuel ih =>
    rw [intersect] at done
    split at done
    case isTrue same =>
      cases done
      exact ⟨⟨0, rfl⟩, ⟨0, same.symm⟩⟩
    case isFalse =>
      simp only [bind_eq_bind, bind_eq_some_iff] at done
      obtain ⟨a', climbedA, b', climbedB, met⟩ := done
      obtain ⟨⟨stepsA, metA⟩, stepsB, metB⟩ := ih met
      obtain ⟨upA, reachedA⟩ := climb_ancestor climbedA
      obtain ⟨upB, reachedB⟩ := climb_ancestor climbedB
      refine ⟨⟨stepsA + upA, ?_⟩, stepsB + upB, ?_⟩
      · rw [Function.iterate_add_apply, reachedA, metA]
      · rw [Function.iterate_add_apply, reachedB, metB]

/-- Neither a block nor one of its ancestors is the invalid block. -/
def Rooted (idom : BlockId → BlockId) (block : BlockId) : Prop :=
  ∀ steps, idom^[steps] block ≠ 0

theorem Rooted.ancestor (rooted : Rooted idom block) (up : ℕ) :
    Rooted idom (idom^[up] block) := by
  intro steps
  rw [← Function.iterate_add_apply]
  exact rooted (steps + up)

/-- From an ancestor of a rooted predecessor the walk over the remaining
predecessors only moves to further ancestors. -/
theorem foldIdom_keeps {preds : List BlockId} {pred found common : BlockId}
    (rooted : Rooted idom pred) (above : ∃ steps, idom^[steps] pred = found)
    (done : preds.foldlM (fun found pred =>
      if idom pred = 0 then some found
      else if found ≠ 0 then intersect rpo idom fuel found pred
      else some pred) found = some common) :
    ∃ steps, idom^[steps] pred = common := by
  induction preds generalizing found with
  | nil =>
    cases done
    exact above
  | cons next rest ih =>
    rw [foldlM_cons] at done
    obtain ⟨reached, stepDone, restDone⟩ := bind_eq_some_iff.mp done
    refine ih ?_ restDone
    obtain ⟨up, rfl⟩ := above
    split at stepDone
    · cases stepDone
      exact ⟨up, rfl⟩
    · rw [if_pos (rooted up)] at stepDone
      obtain ⟨⟨steps, met⟩, -⟩ := intersect_ancestor stepDone
      exact ⟨steps + up, by rw [Function.iterate_add_apply, met]⟩

theorem newIdom_ancestor {preds : List BlockId} {pred found : BlockId} (member : pred ∈ preds)
    (rooted : Rooted idom pred) (done : newIdom rpo idom fuel preds = some found) :
    ∃ steps, idom^[steps] pred = found := by
  obtain ⟨before, after, rfl⟩ := append_of_mem member
  rw [newIdom, foldlM_append] at done
  obtain ⟨earlier, -, rest⟩ := bind_eq_some_iff.mp done
  rw [foldlM_cons] at rest
  obtain ⟨reached, stepDone, restDone⟩ := bind_eq_some_iff.mp rest
  refine foldIdom_keeps rooted ?_ restDone
  have processed : idom pred ≠ 0 := rooted 1
  rw [if_neg processed] at stepDone
  split at stepDone
  · exact (intersect_ancestor stepDone).2
  · cases stepDone
    exact ⟨0, rfl⟩

variable {blocks : List BlockId} {next : BlockId → BlockId}

attribute [local grind =] round

theorem round_of_changed {changed : Bool}
    (done : round f rpo fuel blocks idom true = some (next, changed)) :
    changed = true := by
  induction blocks generalizing idom with
  | nil =>
    cases done
    rfl
  | cons block rest ih =>
    rw [round] at done
    split at done
    · exact ih done
    · obtain ⟨found, -, continued⟩ := bind_eq_some_iff.mp done
      split at continued <;> exact ih continued

/-- A round that reports no change found every entry of the table in place. -/
theorem round_unchanged (done : round f rpo fuel blocks idom false = some (next, false)) :
    next = idom ∧ ∀ block ∈ blocks, block ≠ f.entryBlock →
      newIdom rpo idom fuel (predecessors f rpo block) = some (idom block) := by
  induction blocks with
  | nil =>
    cases done
    exact ⟨rfl, fun block member => nomatch member⟩
  | cons block rest ih =>
    rw [round] at done
    split at done
    case isTrue atEntry =>
      obtain ⟨same, settled⟩ := ih done
      refine ⟨same, ?_⟩
      intro other member notEntry
      rcases mem_cons.mp member with top | later
      · exact absurd (top.trans atEntry) notEntry
      · exact settled other later notEntry
    case isFalse =>
      obtain ⟨found, computed, continued⟩ := bind_eq_some_iff.mp done
      split at continued
      case isTrue => cases round_of_changed continued
      case isFalse inPlace =>
        obtain ⟨same, settled⟩ := ih continued
        refine ⟨same, ?_⟩
        intro other member notEntry
        rcases mem_cons.mp member with top | later
        · subst top
          rw [computed, not_ne_iff.mp inPlace]
        · exact settled other later notEntry

theorem round_entry {before changed : Bool}
    (done : round f rpo fuel blocks idom before = some (next, changed)) :
    next f.entryBlock = idom f.entryBlock := by
  induction blocks generalizing idom before with
  | nil =>
    cases done
    rfl
  | cons block rest ih =>
    rw [round] at done
    split at done
    case isTrue => exact ih done
    case isFalse notEntry =>
      obtain ⟨found, -, continued⟩ := bind_eq_some_iff.mp done
      split at continued
      · rw [ih continued]
        simp [Ne.symm notEntry]
      · exact ih continued

theorem fixpoint_settled {rounds : ℕ} {start : BlockId → BlockId}
    (done : fixpoint f rpo fuel rounds start = some idom) :
    idom f.entryBlock = start f.entryBlock ∧
      ∀ block ∈ rpo, block ≠ f.entryBlock →
        newIdom rpo idom fuel (predecessors f rpo block) = some (idom block) := by
  induction rounds generalizing start with
  | zero => cases done
  | succ rounds ih =>
    rw [fixpoint] at done
    obtain ⟨⟨next, changed⟩, ran, continued⟩ := bind_eq_some_iff.mp done
    cases changed with
    | true =>
      obtain ⟨atEntry, settled⟩ := ih continued
      exact ⟨atEntry.trans (round_entry ran), settled⟩
    | false =>
      obtain ⟨same, settled⟩ := round_unchanged ran
      cases continued
      subst same
      exact ⟨rfl, settled⟩

/-- What a finished computation over a defined function provides. -/
structure Settled (f : Function) (tree : DominatorTree) : Prop where
  entryListed : f.entryBlock ∈ tree.rpo
  closed : ∀ block ∈ tree.rpo, ∀ succ ∈ f.successorBlocks block, succ ∈ tree.rpo
  entryRoot : tree.idomTable f.entryBlock = f.entryBlock
  passed : ∀ block ∈ tree.rpo, block ≠ f.entryBlock → ∀ pred ∈ tree.rpo,
    block ∈ f.successorBlocks pred → Rooted tree.idomTable pred →
      ∃ steps, tree.idomTable^[steps] pred = tree.idomTable block

theorem compute_settled {tree : DominatorTree} (defined : f.isDeclaration = false)
    (done : compute fuel f = some tree) :
    Settled f tree := by
  rw [compute, if_neg (by simp [defined])] at done
  obtain ⟨rpo, searched, rest⟩ := bind_eq_some_iff.mp done
  obtain ⟨idom, iterated, packed⟩ := bind_eq_some_iff.mp rest
  cases packed
  obtain ⟨entryListed, closed⟩ := rpoOf_closed searched
  obtain ⟨atEntry, settled⟩ := fixpoint_settled iterated
  refine ⟨entryListed, closed, by simpa using atEntry, ?_⟩
  intro block listed notEntry pred predListed edge rooted
  exact newIdom_ancestor (mem_predecessors predListed edge) rooted (settled block listed notEntry)

theorem dominates_ancestor {tree : DominatorTree} {a b : BlockId}
    (answer : tree.dominates fuel a b = some true) :
    ∃ steps, tree.idomTable^[steps] b = a := by
  rw [dominates] at answer
  split at answer
  · cases answer
  · obtain ⟨top, climbed, same⟩ := bind_eq_some_iff.mp answer
    obtain ⟨steps, reached⟩ := climb_ancestor climbed
    have equal : a = top := by simpa using same
    exact ⟨steps, reached.trans equal.symm⟩

section Query

variable {tree : DominatorTree} {succs : BlockId → List BlockId} (settled : Settled f tree)
  (within : ∀ block, ∀ succ ∈ succs block, succ ∈ f.successorBlocks block)

include settled within

theorem Settled.listed (reached : Cfg.Reached succs f.entryBlock block) : block ∈ tree.rpo := by
  obtain ⟨trail, walk⟩ := reached
  exact walk.induct (· ∈ tree.rpo) settled.entryListed
    fun node next listed edge => settled.closed node listed next (within node next edge)

/-- The answer holds for every part of the flow graph that avoids the invalid
block. -/
theorem Settled.dominates_sound (valid : ∀ block, Cfg.Reached succs f.entryBlock block → block ≠ 0)
    {a b : BlockId} (answer : tree.dominates fuel a b = some true) :
    Cfg.Dominates succs f.entryBlock a b := by
  obtain ⟨steps, rfl⟩ := dominates_ancestor answer
  have entryRooted : Rooted tree.idomTable f.entryBlock := by
    intro steps
    rw [Function.iterate_fixed settled.entryRoot]
    exact valid _ ⟨[], .start⟩
  apply Cfg.ancestor_dominates tree.idomTable
    (fun block => Cfg.Reached succs f.entryBlock block ∧ Rooted tree.idomTable block)
    settled.entryRoot ⟨⟨[], .start⟩, entryRooted⟩
  rintro node next ⟨⟨trail, walk⟩, rooted⟩ edge notEntry
  obtain ⟨index, taken⟩ := getElem?_of_mem edge
  have nextReached : Cfg.Reached succs f.entryBlock next := ⟨_, walk.step taken⟩
  obtain ⟨up, above⟩ := settled.passed next (settled.listed within nextReached) notEntry
    node (settled.listed within ⟨trail, walk⟩) (within node next edge) rooted
  refine ⟨⟨nextReached, ?_⟩, up, above⟩
  intro steps
  cases steps with
  | zero => exact valid next nextReached
  | succ steps =>
    rw [Function.iterate_succ_apply, ← above]
    exact rooted.ancestor up steps

end Query

end Aburi.Air.DominatorTree
