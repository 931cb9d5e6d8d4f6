import Aburi.Air.DominatorSearch
import Aburi.Lib.DominatorIteration

/-!
# Correctness of the dominator tree

A round over the reverse postorder improves the entry of every block.  After
as many rounds as there are blocks the ancestors of a block are its dominators,
and the next round changes nothing.
-/

namespace Aburi.Air.DominatorTree

open Aburi.Lib List
open Aburi.Lib.Cfg (Above Approximates Improves)

variable {f : Function} {rpo : List BlockId} {idom : BlockId → BlockId} {level : BlockId → ℕ}

/-- The blocks that have an entry in the table. -/
def Known (rpo : List BlockId) (idom : BlockId → BlockId) (block : BlockId) : Prop :=
  block ∈ rpo ∧ idom block ≠ 0

variable {block : BlockId}

namespace Ordered

variable (ordered : Ordered f rpo)

include ordered

theorem entry_first (listed : block ∈ rpo) :
    rpo.idxOf f.entryBlock ≤ rpo.idxOf block := by
  induction isOrder : rpo.idxOf block using Nat.strong_induction_on generalizing block with
  | _ order ih =>
    by_cases atEntry : block = f.entryBlock
    · rw [← atEntry, isOrder]
    · obtain ⟨pred, predListed, -, lower⟩ := ordered.earlier block listed atEntry
      have := ih _ (isOrder ▸ lower) predListed rfl
      omega

theorem climbs (listed : block ∈ rpo) :
    ∃ visited, Cfg.Route f.successorBlocks f.entryBlock rpo.idxOf 0 visited block := by
  induction isOrder : rpo.idxOf block using Nat.strong_induction_on generalizing block with
  | _ order ih =>
    by_cases atEntry : block = f.entryBlock
    · rw [atEntry]
      exact ⟨_, .start⟩
    · obtain ⟨pred, predListed, edge, lower⟩ := ordered.earlier block listed atEntry
      obtain ⟨visited, route⟩ := ih _ (isOrder ▸ lower) predListed rfl
      exact ⟨_, route.forward edge lower⟩

theorem listed (reached : Cfg.Reached f.successorBlocks f.entryBlock block) :
    block ∈ rpo := by
  obtain ⟨trail, walk⟩ := reached
  exact walk.induct (· ∈ rpo) ordered.entryListed
    fun node next isListed edge => ordered.closed node isListed next edge

omit ordered in
theorem order_inj {first second : BlockId} (listed : first ∈ rpo)
    (same : rpo.idxOf first = rpo.idxOf second) : first = second :=
  (idxOf_inj listed).mp same

end Ordered

theorem comesAfter_iff {bound : BlockId} (blockListed : block ∈ rpo) (boundListed : bound ∈ rpo) :
    comesAfter rpo block bound = true ↔ rpo.idxOf bound < rpo.idxOf block := by
  have index : ∀ {block : BlockId}, block ∈ rpo → rpo.idxOf? block = some (rpo.idxOf block) := by
    intro block listed
    rw [idxOf?, findIdx?_eq_some_iff_findIdx_eq]
    exact ⟨idxOf_lt_length_of_mem listed, rfl⟩
  simp [comesAfter, index blockListed, index boundListed]

theorem mem_predecessors_iff {pred : BlockId} :
    pred ∈ predecessors f rpo block ↔ pred ∈ rpo ∧ block ∈ f.successorBlocks pred := by
  simp only [predecessors, mem_flatMap, mem_filterMap]
  constructor
  · rintro ⟨other, listed, succ, edge, isPred⟩
    split at isPred
    case isTrue same =>
      cases isPred
      exact ⟨listed, same ▸ edge⟩
    case isFalse => cases isPred
  · rintro ⟨listed, edge⟩
    exact ⟨pred, listed, block, edge, by simp⟩

section Walks

variable (ordered : Ordered f rpo)
  (approximates : Approximates f.successorBlocks f.entryBlock rpo.idxOf (Known rpo idom) level idom)

include ordered approximates

/-- The climb ends at the lowest ancestor that does not come after the bound. -/
theorem climb_spec {fuel : ℕ} {bound : BlockId} (isKnown : Known rpo idom block)
    (boundListed : bound ∈ rpo) (enough : rpo.idxOf block < fuel) :
    ∃ top, climb rpo idom fuel block bound = some top ∧ Above idom block top ∧
      rpo.idxOf top ≤ rpo.idxOf bound ∧
      ∀ ancestor, Above idom block ancestor → rpo.idxOf ancestor ≤ rpo.idxOf bound →
        Above idom top ancestor := by
  induction fuel generalizing block with
  | zero => exact absurd enough (Nat.not_lt_zero _)
  | succ fuel ih =>
    rw [climb]
    split
    case isTrue after =>
      rw [comesAfter_iff isKnown.1 boundListed] at after
      have notEntry : block ≠ f.entryBlock := by
        rintro rfl
        have := ordered.entry_first boundListed
        omega
      have lower := approximates.descends block isKnown notEntry
      obtain ⟨top, ends, above, low, lowest⟩ :=
        ih (approximates.knownParent block isKnown) (by omega)
      refine ⟨top, ends, (Above.parent_above idom block).trans above, low, ?_⟩
      intro ancestor isAbove isLow
      rcases isAbove.cases with rfl | higher
      · omega
      · exact lowest ancestor higher isLow
    case isFalse notAfter =>
      rw [comesAfter_iff isKnown.1 boundListed, not_lt] at notAfter
      exact ⟨block, rfl, Above.refl _ _, notAfter, fun ancestor isAbove _ => isAbove⟩

theorem intersect_spec {fuel : ℕ} {a b : BlockId} (aKnown : Known rpo idom a)
    (bKnown : Known rpo idom b) (enough : rpo.idxOf a + rpo.idxOf b + 2 ≤ fuel) :
    ∃ common, intersect rpo idom fuel a b = some common ∧ Above idom a common ∧
      Above idom b common ∧
      ∀ ancestor, Above idom a ancestor → Above idom b ancestor → Above idom common ancestor := by
  induction fuel generalizing a b with
  | zero => omega
  | succ fuel ih =>
    rw [intersect]
    split
    case isTrue same =>
      subst same
      exact ⟨a, rfl, Above.refl _ _, Above.refl _ _, fun ancestor isAbove _ => isAbove⟩
    case isFalse differ =>
      have orders : rpo.idxOf a ≠ rpo.idxOf b :=
        fun same => differ (Ordered.order_inj aKnown.1 same)
      obtain ⟨a', climbedA, aboveA, lowA, lowestA⟩ :=
        climb_spec ordered approximates aKnown bKnown.1 (by omega : rpo.idxOf a < fuel)
      have a'Known := approximates.known_above aKnown aboveA
      obtain ⟨b', climbedB, aboveB, lowB, lowestB⟩ :=
        climb_spec ordered approximates bKnown a'Known.1 (by omega : rpo.idxOf b < fuel)
      have b'Known := approximates.known_above bKnown aboveB
      have orderA := approximates.order_above aKnown aboveA
      have orderB := approximates.order_above bKnown aboveB
      obtain ⟨common, met, aboveA', aboveB', nearest⟩ := ih a'Known b'Known (by omega)
      refine ⟨common, ?_, aboveA.trans aboveA', aboveB.trans aboveB', ?_⟩
      · simp [climbedA, climbedB, met]
      · intro ancestor isAboveA isAboveB
        have higherA := lowestA ancestor isAboveA (approximates.order_above bKnown isAboveB)
        exact nearest ancestor higherA
          (lowestB ancestor isAboveB (approximates.order_above a'Known higherA))

section

variable {fuel : ℕ} (nonzero : ∀ block ∈ rpo, block ≠ 0) (enough : 2 * rpo.length + 2 ≤ fuel)
include nonzero enough

/-- The walk over predecessors keeps the nearest common ancestor of those that
have an entry. -/
theorem foldIdom_spec {preds : List BlockId} (listed : ∀ pred ∈ preds, pred ∈ rpo) {found : BlockId}
    (foundKnown : found ≠ 0 → Known rpo idom found) :
    ∃ common, preds.foldlM (fun found pred =>
        if idom pred = 0 then some found
        else if found ≠ 0 then intersect rpo idom fuel found pred
        else some pred) found = some common ∧
      ((found ≠ 0 ∨ ∃ pred ∈ preds, Known rpo idom pred) → Known rpo idom common) ∧
      (found ≠ 0 → Above idom found common) ∧
      (∀ pred ∈ preds, Known rpo idom pred → Above idom pred common) ∧
      ∀ ancestor, (found ≠ 0 → Above idom found ancestor) →
        (∀ pred ∈ preds, Known rpo idom pred → Above idom pred ancestor) →
        (found ≠ 0 ∨ ∃ pred ∈ preds, Known rpo idom pred) → Above idom common ancestor := by
  induction preds generalizing found with
  | nil =>
    refine ⟨found, rfl, ?_, fun _ => Above.refl _ _, by simp, ?_⟩
    · rintro (isFound | ⟨pred, member, -⟩)
      · exact foundKnown isFound
      · cases member
    · rintro ancestor ofFound - (isFound | ⟨pred, member, -⟩)
      · exact ofFound isFound
      · cases member
  | cons pred rest ih =>
    have predListed := listed pred mem_cons_self
    have restListed : ∀ pred ∈ rest, pred ∈ rpo :=
      fun other member => listed other (mem_cons_of_mem _ member)
    have short : ∀ {block : BlockId}, block ∈ rpo → rpo.idxOf block < rpo.length :=
      fun member => idxOf_lt_length_of_mem member
    rw [foldlM_cons]
    by_cases unknown : idom pred = 0
    · rw [if_pos unknown]
      obtain ⟨common, ends, isKnown, ofFound, ofPreds, nearest⟩ := ih restListed foundKnown
      have notKnown : ¬ Known rpo idom pred := fun known => known.2 unknown
      refine ⟨common, ends, ?_, ofFound, ?_, ?_⟩
      · simpa [notKnown] using isKnown
      · simpa [notKnown] using ofPreds
      · simpa [notKnown] using nearest
    · have predKnown : Known rpo idom pred := ⟨predListed, unknown⟩
      rw [if_neg unknown]
      -- the first step leaves a known block above both
      obtain ⟨next, stepEnds, nextKnown, ofFirst, ofPred, nearestStep⟩ :
          ∃ next, (if found ≠ 0 then intersect rpo idom fuel found pred else some pred) =
              some next ∧ Known rpo idom next ∧ (found ≠ 0 → Above idom found next) ∧
            Above idom pred next ∧
            ∀ ancestor, (found ≠ 0 → Above idom found ancestor) → Above idom pred ancestor →
              Above idom next ancestor := by
        by_cases isFound : found ≠ 0
        · have isKnown := foundKnown isFound
          have foundShort := short isKnown.1
          have predShort := short predListed
          obtain ⟨common, met, aboveFound, abovePred, nearest⟩ :=
            intersect_spec ordered approximates isKnown predKnown (by omega : _ ≤ fuel)
          refine ⟨common, by rw [if_pos isFound, met],
            approximates.known_above isKnown aboveFound, fun _ => aboveFound, abovePred, ?_⟩
          exact fun ancestor ofFound ofPred => nearest ancestor (ofFound isFound) ofPred
        · exact ⟨pred, by rw [if_neg isFound], predKnown, fun nonzero => absurd nonzero isFound,
            Above.refl _ _, fun ancestor _ ofPred => ofPred⟩
      have nextNonzero := nonzero next nextKnown.1
      obtain ⟨common, ends, isKnown, ofNext, ofPreds, nearest⟩ :=
        ih restListed (fun _ => nextKnown)
      refine ⟨common, ?_, fun _ => isKnown (.inl nextNonzero),
        fun isFound => (ofFirst isFound).trans (ofNext nextNonzero), ?_, ?_⟩
      · rw [stepEnds]
        exact ends
      · intro other member otherKnown
        rcases List.mem_cons.mp member with rfl | later
        · exact ofPred.trans (ofNext nextNonzero)
        · exact ofPreds other later otherKnown
      · intro ancestor ofFound ofPreds _
        refine nearest ancestor (fun _ => nearestStep ancestor ofFound ?_) ?_ (.inl nextNonzero)
        · exact ofPreds pred mem_cons_self predKnown
        · exact fun other member => ofPreds other (mem_cons_of_mem _ member)

/-- A block with a known predecessor in front of it gets an improved entry. -/
theorem newIdom_improves {pred : BlockId} (predKnown : Known rpo idom pred)
    (edge : block ∈ f.successorBlocks pred) (before : rpo.idxOf pred < rpo.idxOf block) :
    ∃ found, newIdom rpo idom fuel (predecessors f rpo block) = some found ∧
      Improves f.successorBlocks rpo.idxOf (Known rpo idom) idom block found := by
  have isPred : ∀ {pred : BlockId}, Known rpo idom pred → block ∈ f.successorBlocks pred →
      pred ∈ predecessors f rpo block :=
    fun known edge => mem_predecessors known.1 edge
  have some_ : ∃ pred ∈ predecessors f rpo block, Known rpo idom pred :=
    ⟨pred, isPred predKnown edge, predKnown⟩
  obtain ⟨found, ends, isKnown, -, common, nearest⟩ :=
    foldIdom_spec ordered approximates nonzero enough
      (fun pred member => (mem_predecessors_iff.1 member).1)
      (fun nonzero => absurd rfl nonzero : (0 : BlockId) ≠ 0 → Known rpo idom 0)
  refine ⟨found, ends, isKnown (.inr some_), ?_, ?_, ?_⟩
  · have above := common pred (isPred predKnown edge) predKnown
    exact (approximates.order_above predKnown above).trans_lt before
  · exact fun other otherKnown otherEdge => common other (isPred otherKnown otherEdge) otherKnown
  · intro ancestor ofPreds
    refine nearest ancestor (fun nonzero => absurd rfl nonzero) ?_ (.inr some_)
    intro other member otherKnown
    exact ofPreds other otherKnown (mem_predecessors_iff.1 member).2

end

end Walks

end Aburi.Air.DominatorTree
