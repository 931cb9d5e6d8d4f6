import Aburi.Air.DominatorComplete

/-!
# The rounds of the dominator tree and its queries

The table after each block of each round, the end of the rounds and what the
two queries answer.
-/

namespace Aburi.Air.DominatorTree

open Aburi.Lib List
open Aburi.Lib.Cfg (Above Approximates Improves)

variable {f : Function} {rpo : List BlockId} {idom : BlockId → BlockId}

/-- The round that has come to a block, counted from one. -/
def roundLevel (rpo : List BlockId) (round position : ℕ) (block : BlockId) : ℕ :=
  if rpo.idxOf block < position then round else round - 1

/-- The table in a round, in front of a position of the order. -/
structure Stage (f : Function) (rpo : List BlockId) (round position : ℕ)
    (idom : BlockId → BlockId) : Prop where
  approximates : Approximates f.successorBlocks f.entryBlock rpo.idxOf (Known rpo idom)
    (roundLevel rpo round position) idom
  done : ∀ block ∈ rpo, rpo.idxOf block < position ∨ 1 < round → idom block ≠ 0

theorem Stage.nextRound {round : ℕ} (stage : Stage f rpo round rpo.length idom) :
    Stage f rpo (round + 1) 0 idom := by
  have inside : ∀ block ∈ rpo, rpo.idxOf block < rpo.length :=
    fun block listed => idxOf_lt_length_of_mem listed
  constructor
  · refine stage.approximates.congr (fun _ => Iff.rfl) fun block isKnown _ => ?_
    rw [roundLevel, roundLevel, if_neg (Nat.not_lt_zero _), if_pos (inside block isKnown.1),
      Nat.add_sub_cancel]
  · exact fun block listed _ => stage.done block listed (.inl (inside block listed))

section Rounds

variable (ordered : Ordered f rpo) (nonzero : ∀ block ∈ rpo, block ≠ 0)

include ordered nonzero

theorem stage_start :
    Stage f rpo 1 0 (Function.update (fun _ => 0) f.entryBlock f.entryBlock) := by
  have isEntry : ∀ block, Known rpo
      (Function.update (fun _ => 0) f.entryBlock f.entryBlock) block → block = f.entryBlock := by
    rintro block ⟨-, known⟩
    by_contra differs
    exact known (Function.update_of_ne differs _ _)
  have root : Function.update (fun _ => 0) f.entryBlock f.entryBlock f.entryBlock =
      f.entryBlock := Function.update_self _ _ _
  have entryKnown : Known rpo (Function.update (fun _ => 0) f.entryBlock f.entryBlock)
      f.entryBlock :=
    ⟨ordered.entryListed, by rw [root]; exact nonzero _ ordered.entryListed⟩
  constructor
  · refine ⟨entryKnown, root, ?_, ?_, ?_, ?_, ?_⟩
    · intro block isKnown
      rw [isEntry block isKnown, root]
      exact entryKnown
    · exact fun block isKnown notEntry => absurd (isEntry block isKnown) notEntry
    · exact fun block isKnown notEntry => absurd (isEntry block isKnown) notEntry
    · rintro block ancestor isKnown ⟨steps, rfl⟩
      rw [isEntry block isKnown, Function.iterate_fixed root]
      exact Cfg.Needed.self _ _
    · intro block dominator isKnown dominates
      rw [isEntry block isKnown] at dominates ⊢
      rcases dominates [] .start with same | ⟨index, member⟩
      · exact ⟨0, same.symm⟩
      · cases member
  · rintro block - (before | later)
    · exact absurd before (Nat.not_lt_zero _)
    · exact absurd later (lt_irrefl _)

omit ordered nonzero in
theorem level_step {round position : ℕ} {block other : BlockId} (listed : block ∈ rpo)
    (isPosition : rpo.idxOf block = position) (isListed : other ∈ rpo) :
    roundLevel rpo round (position + 1) other =
      Function.update (roundLevel rpo round position) block round other := by
  by_cases same : other = block
  · subst same
    rw [Function.update_self, roundLevel, if_pos (by omega)]
  · have differs : rpo.idxOf other ≠ position := by
      rw [← isPosition]
      exact fun equal => same (Ordered.order_inj isListed equal)
    rw [Function.update_of_ne same, roundLevel, roundLevel]
    congr 1
    exact propext (by omega)

theorem stage_step {fuel round position : ℕ} (positive : 0 < round)
    (stage : Stage f rpo round position idom) (enough : 2 * rpo.length + 2 ≤ fuel)
    {block : BlockId} (listed : block ∈ rpo) (isPosition : rpo.idxOf block = position)
    (notEntry : block ≠ f.entryBlock) :
    ∃ found, newIdom rpo idom fuel (predecessors f rpo block) = some found ∧
      Stage f rpo round (position + 1) (Function.update idom block found) ∧
      (rpo.length < round → found = idom block) := by
  obtain ⟨approximates, done⟩ := stage
  have forward : ∀ pred, Cfg.Reached f.successorBlocks f.entryBlock pred →
      block ∈ f.successorBlocks pred → rpo.idxOf pred < rpo.idxOf block →
      Known rpo idom pred ∧ round ≤ roundLevel rpo round position pred := by
    intro pred reached edge before
    rw [isPosition] at before
    refine ⟨⟨ordered.listed reached, done pred (ordered.listed reached) (.inl before)⟩, ?_⟩
    rw [roundLevel, if_pos before]
  have back : ∀ pred, Cfg.Reached f.successorBlocks f.entryBlock pred →
      block ∈ f.successorBlocks pred → rpo.idxOf block ≤ rpo.idxOf pred → 1 < round →
      Known rpo idom pred ∧ round ≤ roundLevel rpo round position pred + 1 := by
    intro pred reached edge after later
    refine ⟨⟨ordered.listed reached, done pred (ordered.listed reached) (.inr later)⟩, ?_⟩
    rw [roundLevel]
    split <;> omega
  have levels : ∀ node, Known rpo idom node → rpo.idxOf block < rpo.idxOf node →
      roundLevel rpo round position node ≤ round := by
    intro node _ _
    rw [roundLevel]
    split <;> omega
  obtain ⟨pred, predListed, edge, before⟩ := ordered.earlier block listed notEntry
  have predKnown := (forward pred (ordered.reached pred predListed) edge before).1
  obtain ⟨found, isFound, improves⟩ :=
    newIdom_improves ordered approximates nonzero enough predKnown edge before
  have foundNonzero := nonzero found improves.foundKnown.1
  refine ⟨found, isFound, ⟨?_, ?_⟩, ?_⟩
  · have improved := approximates.improve improves notEntry positive
      (fun node isKnown => ordered.climbs isKnown.1) forward back levels
    refine improved.congr (fun node => ?_) fun node isKnown _ => ?_
    · by_cases same : node = block
      · simp [Known, same, listed, foundNonzero]
      · simp [Known, same]
    · have isListed : node ∈ rpo := by
        rcases isKnown with isKnown | rfl
        · exact isKnown.1
        · exact listed
      exact level_step listed isPosition isListed
  · intro other isListed place
    by_cases same : other = block
    · rw [same, Function.update_self]
      exact foundNonzero
    · rw [Function.update_of_ne same]
      apply done other isListed
      have differs : rpo.idxOf other ≠ position := by
        rw [← isPosition]
        exact fun equal => same (Ordered.order_inj isListed equal)
      omega
  · intro many
    have short : 0 < rpo.length := length_pos_of_mem listed
    have isKnown : Known rpo idom block := ⟨listed, done block listed (.inr (by omega))⟩
    refine approximates.found_eq improves notEntry isKnown forward back
      (fun node reached => ordered.listed reached) many.le ?_
    rw [roundLevel]
    split <;> omega

theorem round_spec {fuel number : ℕ} (positive : 0 < number) (enough : 2 * rpo.length + 2 ≤ fuel)
    {front blocks : List BlockId} (isOrder : rpo = front ++ blocks)
    (stage : Stage f rpo number front.length idom) (changed : Bool) :
    ∃ next flag, round f rpo fuel blocks idom changed = some (next, flag) ∧
      Stage f rpo number rpo.length next ∧ (rpo.length < number → flag = changed) := by
  induction blocks generalizing front idom changed with
  | nil =>
    rw [append_nil] at isOrder
    exact ⟨idom, changed, rfl, isOrder ▸ stage, fun _ => rfl⟩
  | cons block rest ih =>
    have listed : block ∈ rpo := isOrder ▸ mem_append_right _ mem_cons_self
    have fresh : block ∉ front := by
      intro again
      have nodup := ordered.nodup
      rw [isOrder] at nodup
      exact (List.nodup_append.mp nodup).2.2 block again block mem_cons_self rfl
    have isPosition : rpo.idxOf block = front.length := by
      rw [isOrder, idxOf_append_of_notMem fresh, idxOf_cons_self, Nat.add_zero]
    have split : rpo = (front ++ [block]) ++ rest := by simp [isOrder]
    rw [round]
    split
    case isTrue atEntry =>
      refine ih split ?_ changed
      rw [length_append, length_singleton]
      refine ⟨stage.approximates.congr (fun _ => Iff.rfl) fun other isKnown differs => ?_, ?_⟩
      · rw [level_step listed isPosition isKnown.1, Function.update_of_ne]
        rwa [atEntry]
      · intro other isListed place
        by_cases same : other = block
        · rw [same, atEntry, stage.approximates.root, ← atEntry]
          exact nonzero block listed
        · apply stage.done other isListed
          have differs : rpo.idxOf other ≠ front.length := by
            rw [← isPosition]
            exact fun equal => same (Ordered.order_inj isListed equal)
          omega
    case isFalse notEntry =>
      obtain ⟨found, isFound, nextStage, late⟩ :=
        stage_step ordered nonzero positive stage enough listed isPosition notEntry
      have moved : Stage f rpo number (front ++ [block]).length
          (Function.update idom block found) := by
        rw [length_append, length_singleton]
        exact nextStage
      rw [isFound]
      by_cases same : idom block = found
      · have unchanged : Function.update idom block found = idom := by
          rw [← same, Function.update_eq_self]
        rw [unchanged] at moved
        obtain ⟨next, flag, ends, last, keeps⟩ := ih split moved changed
        exact ⟨next, flag, by simp [same, ends], last, keeps⟩
      · obtain ⟨next, flag, ends, last, keeps⟩ := ih split moved true
        refine ⟨next, flag, by simp [same, ends], last, fun many => ?_⟩
        exact absurd (late many).symm same

/-- The rounds end, at the latest after one more than there are blocks. -/
theorem fixpoint_ends {fuel rounds number : ℕ} (positive : 0 < number)
    (enough : 2 * rpo.length + 2 ≤ fuel) (stage : Stage f rpo number 0 idom)
    (left : rpo.length + 2 ≤ number + rounds) (some_ : 0 < rounds) :
    ∃ last final, fixpoint f rpo fuel rounds idom = some final ∧ 0 < last ∧
      Stage f rpo last rpo.length final := by
  induction rounds generalizing idom number with
  | zero => exact absurd some_ (lt_irrefl _)
  | succ rounds ih =>
    have whole : rpo = [] ++ rpo := rfl
    obtain ⟨next, flag, ends, after, late⟩ :=
      round_spec ordered nonzero positive enough whole stage false
    rw [fixpoint, ends]
    cases flag with
    | false => exact ⟨number, next, rfl, positive, after⟩
    | true =>
      have early : ¬ rpo.length < number := by
        intro many
        cases late many
      exact ih (Nat.succ_pos _) after.nextRound (by omega) (by omega)

end Rounds

/-- The blocks that control can reach from the entry. -/
def Reachable (f : Function) (block : BlockId) : Prop :=
  f.isDeclaration = false ∧ Cfg.Reached f.successorBlocks f.entryBlock block

/-- The dominator of a block that all its other strict dominators dominate. -/
structure ImmediatelyDominates (f : Function) (dominator block : BlockId) : Prop where
  strict : dominator ≠ block
  dominates : Cfg.Dominates f.successorBlocks f.entryBlock dominator block
  closest : ∀ other, other ≠ block → Cfg.Dominates f.successorBlocks f.entryBlock other block →
    Cfg.Dominates f.successorBlocks f.entryBlock other dominator

theorem ImmediatelyDominates.unique {first second block : BlockId}
    (reached : Cfg.Reached f.successorBlocks f.entryBlock block)
    (left : ImmediatelyDominates f first block) (right : ImmediatelyDominates f second block) :
    first = second := by
  by_contra differ
  have firstReached : Cfg.Reached f.successorBlocks f.entryBlock first := by
    obtain ⟨trail, walk⟩ := reached
    obtain ⟨index, member⟩ := (left.dominates trail walk).resolve_left left.strict
    exact (walk.left member).1
  have forward := (left.closest second right.strict right.dominates).left (Ne.symm differ)
  have backward := (right.closest first left.strict left.dominates).left differ
  exact backward.asymm firstReached forward

section Queries

variable {tree : DominatorTree} {last fuel : ℕ}

/-- The climb of the query decides whether the first block is an ancestor of
the second. -/
theorem dominates_answers (ordered : Ordered f tree.rpo)
    (stage : Stage f tree.rpo last tree.rpo.length tree.idomTable)
    (enough : tree.rpo.length ≤ fuel) (a b : BlockId) :
    ∃ answer, tree.dominates fuel a b = some answer ∧
      (answer = true ↔ a ∈ tree.rpo ∧ b ∈ tree.rpo ∧ Above tree.idomTable b a) := by
  have known : ∀ {block : BlockId}, block ∈ tree.rpo → Known tree.rpo tree.idomTable block :=
    fun listed => ⟨listed, stage.done _ listed (.inl (idxOf_lt_length_of_mem listed))⟩
  rw [dominates, reachable, reachable]
  by_cases both : a ∈ tree.rpo ∧ b ∈ tree.rpo
  · obtain ⟨aListed, bListed⟩ := both
    obtain ⟨top, ends, above, low, lowest⟩ := climb_spec ordered stage.approximates (known bListed)
      aListed ((idxOf_lt_length_of_mem bListed).trans_le enough)
    refine ⟨a == top, by simp [aListed, bListed, ends], ?_⟩
    rw [beq_iff_eq]
    constructor
    · rintro rfl
      exact ⟨aListed, bListed, above⟩
    · rintro ⟨-, -, isAbove⟩
      have topKnown := stage.approximates.known_above (known bListed) above
      have higher := lowest a isAbove le_rfl
      exact Ordered.order_inj aListed
        (le_antisymm (stage.approximates.order_above topKnown higher) low)
  · refine ⟨false, ?_, ?_⟩
    · have missing : (!tree.rpo.contains a || !tree.rpo.contains b) = true := by
        simpa [← not_and_or] using both
      rw [if_pos missing]
    · apply iff_of_false Bool.false_ne_true
      rintro ⟨aListed, bListed, -⟩
      exact both ⟨aListed, bListed⟩

end Queries

/-- The computation ends, dominance is answered as it is defined, and the
immediate dominator is the unique closest strict dominator. -/
theorem compute_correct (valid : f.ValidEdges) :
    ∃ bound, ∀ fuel, bound ≤ fuel → ∃ tree, compute fuel f = some tree ∧
      (∀ a b, ∃ answer, tree.dominates fuel a b = some answer ∧
        (answer = true ↔ Reachable f a ∧ Reachable f b ∧
          Cfg.Dominates f.successorBlocks f.entryBlock a b)) ∧
      ∀ block, Reachable f block → block ≠ f.entryBlock →
        ImmediatelyDominates f (tree.idom block) block ∧
          ∀ other, ImmediatelyDominates f other block → other = tree.idom block := by
  by_cases declared : f.isDeclaration = true
  · refine ⟨0, fun fuel _ => ⟨_, by rw [compute, if_pos declared], ?_, ?_⟩⟩
    · intro a b
      refine ⟨false, by simp [dominates, reachable], ?_⟩
      simp [Reachable, declared]
    · rintro block ⟨defined, -⟩
      exact absurd declared (by simp [defined])
  have defined : f.isDeclaration = false := by simpa using declared
  obtain ⟨searchBound, rpo, searches⟩ := rpoOf_ends valid defined
  refine ⟨searchBound + (2 * rpo.length + 2), fun fuel enough => ?_⟩
  have searched := searches fuel (by omega)
  have ordered := rpoOf_ordered searched
  have listedValid : ∀ block, Cfg.Reached f.successorBlocks f.entryBlock block →
      f.isValidBlock block = true := by
    rintro block ⟨trail, walk⟩
    exact walk.induct (f.isValidBlock · = true) (valid.entry defined)
      fun node next isValid edge => valid.edges node isValid next edge
  have nonzero : ∀ block, Cfg.Reached f.successorBlocks f.entryBlock block → block ≠ 0 := by
    intro block reached
    exact (Slots.isValid_iff.mp (listedValid block reached)).1.ne'
  have rpoNonzero : ∀ block ∈ rpo, block ≠ 0 :=
    fun block listed => nonzero block (ordered.reached block listed)
  obtain ⟨last, final, ends, lastPos, stage⟩ := @fixpoint_ends _ _ _ ordered rpoNonzero fuel fuel 1
    one_pos (by omega) (stage_start ordered rpoNonzero) (by omega) (by omega)
  have computed : compute fuel f = some ⟨rpo, final, f.entryBlock⟩ := by
    simp [compute, defined, searched, ends]
  have settled := compute_settled defined computed
  have reachable_iff : ∀ block, Reachable f block ↔ block ∈ rpo :=
    fun block => ⟨fun isReachable => ordered.listed isReachable.2,
      fun listed => ⟨defined, ordered.reached block listed⟩⟩
  have known : ∀ {block : BlockId}, block ∈ rpo → Known rpo final block :=
    fun listed => ⟨listed, stage.done _ listed (.inl (idxOf_lt_length_of_mem listed))⟩
  have answers := @dominates_answers f ⟨rpo, final, f.entryBlock⟩ last fuel ordered stage
    (by show rpo.length ≤ fuel; omega)
  -- ancestors are dominators
  have above_iff : ∀ {a b : BlockId}, b ∈ rpo → (Above final b a ↔
      Cfg.Dominates f.successorBlocks f.entryBlock a b) := by
    intro a b listed
    constructor
    · intro above
      obtain ⟨answer, isAnswer, meaning⟩ := answers a b
      have aListed := (stage.approximates.known_above (known listed) above).1
      rw [meaning.mpr ⟨aListed, listed, above⟩] at isAnswer
      exact settled.dominates_sound (fun _ _ edge => edge) nonzero isAnswer
    · exact stage.approximates.lower b a (known listed)
  refine ⟨_, computed, ?_, ?_⟩
  · intro a b
    obtain ⟨answer, isAnswer, meaning⟩ := answers a b
    refine ⟨answer, isAnswer, meaning.trans ?_⟩
    rw [reachable_iff, reachable_iff]
    exact and_congr_right fun _ => and_congr_right above_iff
  · intro block isReachable notEntry
    have listed := (reachable_iff block).mp isReachable
    have isIdom : DominatorTree.idom ⟨rpo, final, f.entryBlock⟩ block = final block := by
      simp [DominatorTree.idom, reachable, listed, notEntry]
    have lower := stage.approximates.descends block (known listed) notEntry
    have immediate : ImmediatelyDominates f (final block) block := by
      refine ⟨?_, (above_iff listed).mp (Above.parent_above final block), ?_⟩
      · intro same
        rw [same] at lower
        exact lt_irrefl _ lower
      · intro other differs dominates
        have above := (above_iff listed).mpr dominates
        have parentListed := (stage.approximates.knownParent block (known listed)).1
        exact (above_iff parentListed).mp (above.cases.resolve_left differs)
    rw [isIdom]
    exact ⟨immediate, fun other isOther => isOther.unique isReachable.2 immediate⟩

def armBlocks : Function :=
  let f := (Function.createBlock { name := "arms", sig := 1 } []).2
  let f := (f.createBlock []).2
  let f := (f.createBlock []).2
  (f.createBlock []).2

def armCalls : Function :=
  let f := (armBlocks.makeBlockCall 2 []).2
  let f := (f.makeBlockCall 3 []).2
  (f.makeBlockCall 4 []).2

def armInsts : Function :=
  let f := ((armCalls.constInt 1 0 0).2.makeInst .brIf 0 [1] (packPairAux 1 2)).2
  let f := (f.makeInst .jump 0 [] 3).2
  let f := (f.makeInst .jump 0 [] 3).2
  (f.makeInst .jump 0 [] 1).2

/-- The entry branches to two arms, which meet in a block that goes back to
the first of them. -/
def loopWithArms : Function :=
  (((armInsts.appendInst 1 1).appendInst 2 2).appendInst 3 3).appendInst 4 4

theorem loopWithArms_validEdges : loopWithArms.ValidEdges where
  entry _ := by decide
  edges := by
    intro block isValid
    have bounds := Slots.isValid_iff.mp isValid
    have count : loopWithArms.blocks.size = 5 := rfl
    obtain _ | _ | _ | _ | _ | block := block
    · exact absurd bounds.1 (lt_irrefl 0)
    iterate 4 decide
    omega

theorem loopWithArms_tree :
    ∃ bound, ∀ fuel, bound ≤ fuel → ∃ tree, compute fuel loopWithArms = some tree ∧
      (∀ a b, ∃ answer, tree.dominates fuel a b = some answer ∧
        (answer = true ↔ Reachable loopWithArms a ∧ Reachable loopWithArms b ∧
          Cfg.Dominates loopWithArms.successorBlocks loopWithArms.entryBlock a b)) ∧
      ∀ block, Reachable loopWithArms block → block ≠ loopWithArms.entryBlock →
        ImmediatelyDominates loopWithArms (tree.idom block) block ∧
        ∀ other, ImmediatelyDominates loopWithArms other block → other = tree.idom block :=
  compute_correct loopWithArms_validEdges

end Aburi.Air.DominatorTree
