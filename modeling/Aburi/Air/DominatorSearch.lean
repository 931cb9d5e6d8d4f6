import Aburi.Air.DominatorSoundness
import Mathlib.Algebra.BigOperators.Group.Finset.Basic

/-!
# The search of the dominator tree

The depth-first search ends and lists every reachable block once.  Every block
but the entry comes after a block with an edge to it.
-/

namespace Aburi.Air

open Aburi.Lib List Prod

/-- The edges of valid blocks, and the entry if there is one, are valid blocks. -/
structure Function.ValidEdges (f : Function) : Prop where
  entry : f.isDeclaration = false → f.isValidBlock f.entryBlock = true
  edges : ∀ block, f.isValidBlock block = true → ∀ succ ∈ f.successorBlocks block,
    f.isValidBlock succ = true

namespace DominatorTree

variable {f : Function}

/-- The steps that the search has to take for a block. -/
def weight (f : Function) (block : BlockId) : ℕ := 1 + (f.successorBlocks block).length

def unvisitedWeight (f : Function) (visited : List BlockId) : ℕ :=
  ∑ block ∈ (Finset.range f.blocks.size).filter (· ∉ visited), weight f block

def stackWeight (stack : List (BlockId × List BlockId)) : ℕ :=
  (stack.map fun entry => 1 + entry.2.length).sum

theorem unvisitedWeight_visit {visited : List BlockId} {block : BlockId}
    (isValid : f.isValidBlock block = true) (fresh : block ∉ visited) :
    weight f block + unvisitedWeight f (block :: visited) = unvisitedWeight f visited := by
  have member : block ∈ (Finset.range f.blocks.size).filter (· ∉ visited) := by
    rw [Finset.mem_filter, Finset.mem_range]
    exact ⟨(Slots.isValid_iff.mp isValid).2, fresh⟩
  have erased : (Finset.range f.blocks.size).filter (· ∉ block :: visited) =
      ((Finset.range f.blocks.size).filter (· ∉ visited)).erase block := by
    ext other
    simp only [Finset.mem_filter, Finset.mem_erase, mem_cons, not_or]
    tauto
  rw [unvisitedWeight, erased, unvisitedWeight]
  exact Finset.add_sum_erase _ _ member

theorem search_ends (valid : f.ValidEdges) {fuel : ℕ} {visited : List BlockId}
    {stack : List (BlockId × List BlockId)} {rpo : List BlockId}
    (onStack : ∀ entry ∈ stack, ∀ succ ∈ entry.2, f.isValidBlock succ = true)
    (enough : stackWeight stack + unvisitedWeight f visited < fuel) :
    ∃ found, search f fuel visited stack rpo = some found ∧
      ∀ more, fuel ≤ more → search f more visited stack rpo = some found := by
  induction fuel generalizing visited stack rpo with
  | zero => exact absurd enough (Nat.not_lt_zero _)
  | succ fuel ih =>
    -- a step and the rest of the search
    have step : ∀ {visited' : List BlockId} {stack' : List (BlockId × List BlockId)}
        {rpo' : List BlockId},
        (∀ more, search f (more + 1) visited stack rpo = search f more visited' stack' rpo') →
        (∃ found, search f fuel visited' stack' rpo' = some found ∧
          ∀ more, fuel ≤ more → search f more visited' stack' rpo' = some found) →
        ∃ found, search f (fuel + 1) visited stack rpo = some found ∧
          ∀ more, fuel + 1 ≤ more → search f more visited stack rpo = some found := by
      rintro visited' stack' rpo' unfolds ⟨found, ends, stays⟩
      refine ⟨found, (unfolds fuel).trans ends, fun more atLeast => ?_⟩
      obtain ⟨more, rfl⟩ : ∃ before, more = before + 1 := ⟨more - 1, by omega⟩
      exact (unfolds more).trans (stays more (by omega))
    match stack with
    | [] =>
      refine ⟨rpo, rfl, fun more atLeast => ?_⟩
      obtain ⟨more, rfl⟩ : ∃ before, more = before + 1 := ⟨more - 1, by omega⟩
      rfl
    | (block, []) :: stack =>
      refine step (fun more => rfl) (ih ?_ ?_)
      · exact fun entry member => onStack entry (mem_cons_of_mem _ member)
      · simp only [stackWeight, map_cons, sum_cons, length_nil] at enough ⊢
        omega
    | (block, succ :: rest) :: stack =>
      have below : ∀ entry ∈ (block, rest) :: stack, ∀ succ ∈ entry.2,
          f.isValidBlock succ = true := by
        intro entry member next isNext
        rcases mem_cons.mp member with rfl | older
        · exact onStack _ mem_cons_self next (mem_cons_of_mem _ isNext)
        · exact onStack entry (mem_cons_of_mem _ older) next isNext
      have isValid := onStack _ mem_cons_self succ mem_cons_self
      simp only [stackWeight, map_cons, sum_cons, length_cons] at enough
      by_cases seen : succ ∈ visited
      · refine step (fun more => by rw [search, if_pos seen]) (ih below ?_)
        simp only [stackWeight, map_cons, sum_cons]
        omega
      · refine step (fun more => by rw [search, if_neg seen]) (ih ?_ ?_)
        · intro entry member next isNext
          rcases mem_cons.mp member with rfl | older
          · exact valid.edges succ isValid next isNext
          · exact below entry older next isNext
        · have visit := unvisitedWeight_visit isValid seen
          rw [weight] at visit
          simp only [stackWeight, map_cons, sum_cons]
          omega

theorem rpoOf_ends (valid : f.ValidEdges) (defined : f.isDeclaration = false) :
    ∃ bound rpo, ∀ fuel, bound ≤ fuel → rpoOf f fuel = some rpo := by
  have entryValid := valid.entry defined
  obtain ⟨rpo, -, ends⟩ := @search_ends f valid
    (stackWeight [(f.entryBlock, f.successorBlocks f.entryBlock)] +
      unvisitedWeight f [f.entryBlock] + 1)
    [f.entryBlock] [(f.entryBlock, f.successorBlocks f.entryBlock)] []
    (by
      intro entry member succ edge
      rw [mem_singleton.mp member] at edge
      exact valid.edges _ entryValid succ edge)
    (Nat.lt_succ_self _)
  exact ⟨_, rpo, ends⟩

/-- The blocks on the stack reach one another, from the entry at the bottom. -/
def Stacked (f : Function) : List (BlockId × List BlockId) → Prop
  | [] => True
  | [(block, _)] => block = f.entryBlock
  | (block, _) :: (below, rest) :: stack =>
    block ∈ f.successorBlocks below ∧ Stacked f ((below, rest) :: stack)

theorem Stacked.rest {block : BlockId} {first second : List BlockId}
    {stack : List (BlockId × List BlockId)} (stacked : Stacked f ((block, first) :: stack)) :
    Stacked f ((block, second) :: stack) := by
  cases stack <;> exact stacked

theorem Stacked.tail {entry : BlockId × List BlockId} {stack : List (BlockId × List BlockId)}
    (stacked : Stacked f (entry :: stack)) : Stacked f stack := by
  cases stack with
  | nil => exact trivial
  | cons below stack => exact stacked.2

/-- What holds of the blocks that are finished or on the stack. -/
structure SearchOrdered (f : Function) (visited : List BlockId)
    (stack : List (BlockId × List BlockId)) (rpo : List BlockId) : Prop where
  nodup : (stack.map fst ++ rpo).Nodup
  seen : ∀ block ∈ stack.map fst ++ rpo, block ∈ visited
  reached : ∀ block ∈ visited, Cfg.Reached f.successorBlocks f.entryBlock block
  rests : ∀ entry ∈ stack, entry.2 ⊆ f.successorBlocks entry.1
  stacked : Stacked f stack
  parents : ∀ block ∈ rpo, block ≠ f.entryBlock → ∃ pred, block ∈ f.successorBlocks pred ∧
    (pred ∈ stack.map fst ∨ ∃ front back, rpo = front ++ block :: back ∧ pred ∈ front)

namespace SearchOrdered

variable {visited rest rpo : List BlockId} {block succ : BlockId}
  {stack : List (BlockId × List BlockId)}

theorem finish (ordered : SearchOrdered f visited ((block, []) :: stack) rpo) :
    SearchOrdered f visited stack (block :: rpo) where
  nodup := by
    have nodup := ordered.nodup
    rw [map_cons, cons_append] at nodup
    exact (nodup_middle).mpr nodup
  seen := by
    intro other member
    apply ordered.seen
    simp only [map_cons, cons_append, mem_cons, mem_append] at member ⊢
    tauto
  reached := ordered.reached
  rests := fun entry member => ordered.rests entry (mem_cons_of_mem _ member)
  stacked := ordered.stacked.tail
  parents := by
    intro other member notEntry
    rcases mem_cons.mp member with rfl | before
    · -- the finished block was reached from the one below it
      have stacked := ordered.stacked
      cases stack with
      | nil => exact absurd stacked notEntry
      | cons below stack => exact ⟨below.1, stacked.1, .inl (by simp)⟩
    · obtain ⟨pred, edge, place⟩ := ordered.parents other before notEntry
      refine ⟨pred, edge, ?_⟩
      rcases place with onStack | ⟨front, back, split, inFront⟩
      · rcases mem_cons.mp onStack with rfl | below
        · obtain ⟨front, back, split⟩ := append_of_mem before
          exact .inr ⟨_ :: front, back, by rw [split]; rfl, mem_cons_self⟩
        · exact .inl below
      · exact .inr ⟨block :: front, back, by rw [split]; rfl, mem_cons_of_mem _ inFront⟩

theorem skip (ordered : SearchOrdered f visited ((block, succ :: rest) :: stack) rpo) :
    SearchOrdered f visited ((block, rest) :: stack) rpo where
  nodup := ordered.nodup
  seen := ordered.seen
  reached := ordered.reached
  rests := by
    intro entry member
    rcases mem_cons.mp member with rfl | below
    · exact fun next isNext =>
        ordered.rests _ mem_cons_self (mem_cons_of_mem _ isNext)
    · exact ordered.rests entry (mem_cons_of_mem _ below)
  stacked := ordered.stacked.rest
  parents := ordered.parents

theorem visit (ordered : SearchOrdered f visited ((block, succ :: rest) :: stack) rpo)
    (fresh : succ ∉ visited) :
    SearchOrdered f (succ :: visited)
      ((succ, f.successorBlocks succ) :: (block, rest) :: stack) rpo where
  nodup := by
    rw [map_cons, cons_append, nodup_cons]
    exact ⟨fun member => fresh (ordered.seen _ member), ordered.nodup⟩
  seen := by
    intro other member
    rw [map_cons, cons_append] at member
    rcases mem_cons.mp member with rfl | before
    · exact mem_cons_self
    · exact mem_cons_of_mem _ (ordered.seen other before)
  reached := by
    have edge := ordered.rests _ mem_cons_self (mem_cons_self (a := succ) (l := rest))
    obtain ⟨trail, walk⟩ := ordered.reached block (ordered.seen block (by simp))
    obtain ⟨index, taken⟩ := getElem?_of_mem edge
    intro other member
    rcases mem_cons.mp member with rfl | before
    · exact ⟨_, walk.step taken⟩
    · exact ordered.reached other before
  rests := by
    intro entry member
    rcases mem_cons.mp member with rfl | older
    · exact List.Subset.refl _
    · exact ordered.skip.rests entry older
  stacked := ⟨ordered.rests _ mem_cons_self mem_cons_self, ordered.stacked.rest⟩
  parents := by
    intro other member notEntry
    obtain ⟨pred, edge, place⟩ := ordered.parents other member notEntry
    refine ⟨pred, edge, place.imp_left fun onStack => ?_⟩
    exact mem_cons_of_mem _ onStack

end SearchOrdered

theorem search_ordered {fuel : ℕ} {visited : List BlockId}
    {stack : List (BlockId × List BlockId)} {rpo found : List BlockId}
    (ordered : SearchOrdered f visited stack rpo)
    (done : search f fuel visited stack rpo = some found) :
    ∃ visited, SearchOrdered f visited [] found := by
  induction fuel generalizing visited stack rpo with
  | zero => cases done
  | succ fuel ih =>
    match stack with
    | [] =>
      cases done
      exact ⟨visited, ordered⟩
    | (block, []) :: stack => exact ih ordered.finish done
    | (block, succ :: rest) :: stack =>
      rw [search] at done
      split at done
      case isTrue => exact ih ordered.skip done
      case isFalse fresh => exact ih (ordered.visit fresh) done

/-- A reverse postorder of the reachable blocks. -/
structure Ordered (f : Function) (rpo : List BlockId) : Prop where
  nodup : rpo.Nodup
  entryListed : f.entryBlock ∈ rpo
  closed : ∀ block ∈ rpo, ∀ succ ∈ f.successorBlocks block, succ ∈ rpo
  reached : ∀ block ∈ rpo, Cfg.Reached f.successorBlocks f.entryBlock block
  earlier : ∀ block ∈ rpo, block ≠ f.entryBlock →
    ∃ pred ∈ rpo, block ∈ f.successorBlocks pred ∧ rpo.idxOf pred < rpo.idxOf block

theorem rpoOf_ordered {fuel : ℕ} {rpo : List BlockId} (done : rpoOf f fuel = some rpo) :
    Ordered f rpo := by
  have start : SearchOrdered f [f.entryBlock]
      [(f.entryBlock, f.successorBlocks f.entryBlock)] [] := by
    refine ⟨by simp, by simp, ?_, ?_, rfl, by simp⟩
    · intro block member
      rw [mem_singleton.mp member]
      exact ⟨[], .start⟩
    · intro entry member
      rw [mem_singleton.mp member]
      exact List.Subset.refl _
  obtain ⟨visited, ordered⟩ := search_ordered start done
  obtain ⟨entryListed, closed⟩ := rpoOf_closed done
  have nodup : rpo.Nodup := by simpa using ordered.nodup
  refine ⟨nodup, entryListed, closed, ?_, ?_⟩
  · exact fun block member => ordered.reached block (ordered.seen block (by simpa using member))
  · intro block member notEntry
    obtain ⟨pred, edge, place⟩ := ordered.parents block member notEntry
    rcases place with onStack | ⟨front, back, split, inFront⟩
    · cases onStack
    · refine ⟨pred, by rw [split]; exact mem_append_left _ inFront, edge, ?_⟩
      subst split
      have notInFront : block ∉ front := by
        intro again
        exact (nodup_append.mp nodup).2.2 block again block mem_cons_self rfl
      rw [idxOf_append_of_mem inFront, idxOf_append_of_notMem notInFront,
        idxOf_cons_self, Nat.add_zero]
      exact idxOf_lt_length_of_mem inFront

end DominatorTree

end Aburi.Air
