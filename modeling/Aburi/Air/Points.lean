import Aburi.Air.DefBeforeUse
import Aburi.Air.Semantics

/-!
# Points of a function

The flow graph of single instructions.  A point is a position in a linked
block; it is left when its instruction executes.  At this granularity the
order inside blocks and dominance between blocks are one relation, and the
classical property of single assignment has a short proof: what an operation
was computed from keeps its value for as long as the result can be read.
-/

namespace Aburi.Air

open Aburi.Lib List

abbrev Point := BlockId × ℕ

namespace Function

/-- The points that follow a point, over linked blocks. -/
def pointSuccs (f : Function) (point : Point) : List Point :=
  match (f.blockInsts point.1)[point.2]? with
  | none => []
  | some i =>
    if (f.inst i).op.isTerminator then
      (((f.successors i).map fun call => (f.blockCall call).target).filter
        (· ∈ f.layout)).map fun target => (target, 0)
    else [(point.1, point.2 + 1)]

def entryPoint (f : Function) : Point := (f.entryBlock, 0)

abbrev PointReached (f : Function) (point : Point) : Prop :=
  Cfg.Reached f.pointSuccs f.entryPoint point

/-- Every path to the second point has executed the first. -/
abbrev Executed (f : Function) (earlier point : Point) : Prop :=
  Cfg.Left f.pointSuccs f.entryPoint earlier point

def instAt (f : Function) (point : Point) (i : InstId) : Prop :=
  (f.blockInsts point.1)[point.2]? = some i

/-- Every path to the point has defined the value (a result whose instruction
was left counts, also where an invoke unwound). -/
def AvailableAt (f : Function) (v : ValueId) (point : Point) : Prop :=
  match (f.value v).kind with
  | .instResult => ∃ defPoint, f.instAt defPoint (f.defInst v) ∧ f.Executed defPoint point
  | .blockParam =>
    point = (payloadIndex (f.value v), 0) ∨ f.Executed (payloadIndex (f.value v), 0) point
  | _ => True

variable {f : Function}

variable {point : Point}

theorem pointSuccs_of_inst {i : InstId} (found : f.instAt point i)
    (inside : (f.inst i).op.isTerminator = false) :
    f.pointSuccs point = [(point.1, point.2 + 1)] := by
  rw [instAt] at found
  simp [pointSuccs, found, inside]

theorem mem_pointSuccs_of_edge {i : InstId} (found : f.instAt point i) {index : ℕ}
    {call : BlockCallId} (edge : (f.successors i)[index]? = some call)
    (linked : (f.blockCall call).target ∈ f.layout) :
    ((f.blockCall call).target, 0) ∈ f.pointSuccs point := by
  have terminator := successors_terminator (mem_of_getElem? edge)
  rw [instAt] at found
  simp only [pointSuccs, found, terminator, if_true, List.mem_map, mem_filter, decide_eq_true_eq]
  exact ⟨_, ⟨⟨call, mem_of_getElem? edge, rfl⟩, linked⟩, rfl⟩

theorem PointReached.step {next : Point} (reached : f.PointReached point)
    (edge : next ∈ f.pointSuccs point) : f.PointReached next := by
  obtain ⟨trail, walk⟩ := reached
  obtain ⟨index, taken⟩ := getElem?_of_mem edge
  exact ⟨_, walk.step taken⟩

theorem Executed.of_mem {earlier next : Point} (edge : next ∈ f.pointSuccs point)
    (executed : f.Executed earlier next) :
    earlier = point ∨ f.Executed earlier point := by
  obtain ⟨index, taken⟩ := getElem?_of_mem edge
  exact Cfg.Left.of_step taken executed

theorem Executed.reached {earlier : Point} (executed : f.Executed earlier point)
    (reached : f.PointReached point) : f.PointReached earlier := by
  obtain ⟨trail, walk⟩ := reached
  obtain ⟨index, member⟩ := executed trail walk
  exact (walk.left member).1

/-- Inside a block the only way to a point is over the one before it. -/
theorem Executed.next (point : Point) : f.Executed point (point.1, point.2 + 1) := by
  intro trail walk
  generalize target : (point.1, point.2 + 1) = next at walk
  cases walk with
  | start => exact absurd (congrArg Prod.snd target) (Nat.succ_ne_zero _)
  | @step trail node next index before edge =>
    have member := mem_of_getElem? edge
    rw [pointSuccs] at member
    split at member
    · cases member
    split at member
    · obtain ⟨block, -, same⟩ := List.mem_map.mp member
      rw [← same] at target
      exact absurd (congrArg Prod.snd target) (Nat.succ_ne_zero _)
    · have same := target.trans (mem_singleton.mp member)
      simp only [Prod.mk.injEq, Nat.add_right_cancel_iff] at same
      have here : point = node := Prod.ext same.1 same.2
      exact ⟨index, mem_cons.mpr (.inl (by rw [here]))⟩

theorem PointReached.linked (defined : f.isDeclaration = false) (reached : f.PointReached point) :
    point.1 ∈ f.layout := by
  obtain ⟨trail, walk⟩ := reached
  refine walk.induct (fun point => point.1 ∈ f.layout) (entryBlock_mem defined) ?_
  intro node next linked edge
  rw [pointSuccs] at edge
  split at edge
  · cases edge
  split at edge
  · obtain ⟨target, inList, rfl⟩ := List.mem_map.mp edge
    exact of_decide_eq_true (mem_filter.mp inList).2
  · rw [mem_singleton.mp edge]
    exact linked

/-- The blocks that follow a block, among the linked ones. -/
def linkedBlocks (f : Function) (b : BlockId) : List BlockId :=
  (f.successorBlocks b).filter (· ∈ f.layout)

theorem linkedBlocks_subset (b : BlockId) :
    ∀ succ ∈ f.linkedBlocks b, succ ∈ f.successorBlocks b :=
  fun _ member => (mem_filter.mp member).1

theorem linked_of_linkedBlocks (defined : f.isDeclaration = false) {b : BlockId}
    (reached : Cfg.Reached f.linkedBlocks f.entryBlock b) : b ∈ f.layout := by
  obtain ⟨trail, walk⟩ := reached
  refine walk.induct (· ∈ f.layout) (entryBlock_mem defined) ?_
  intro node next _ edge
  exact of_decide_eq_true (mem_filter.mp edge).2

/-- A path over points is a path over blocks that executed every point of the
blocks it left. -/
theorem blockWalk_of_pointWalk (defined : f.isDeclaration = false)
    (laidOut : ∀ b ∈ f.layout, f.LaidOut b) (consistent : f.Consistent) {trail : List (Point × ℕ)}
    (walk : Cfg.Walk f.pointSuccs f.entryPoint trail point) :
    ∃ blocks, Cfg.Walk f.linkedBlocks f.entryBlock blocks point.1 ∧
      (∀ j < point.2, ∃ index, ((point.1, j), index) ∈ trail) ∧
      ∀ left ∈ blocks, ∀ j < (f.blockInsts left.1).length,
        ∃ index, ((left.1, j), index) ∈ trail := by
  induction walk with
  | start =>
    exact ⟨[], .start, fun j impossible => absurd impossible (Nat.not_lt_zero j),
      fun left member => nomatch member⟩
  | @step trail point next index before edge ih =>
    obtain ⟨blocks, blockWalk, current, left⟩ := ih
    have linked := PointReached.linked defined ⟨trail, before⟩
    have grow : ∀ {place : Point} {taken : ℕ}, (place, taken) ∈ trail →
        ∃ index', (place, index') ∈ (point, index) :: trail :=
      fun member => ⟨_, mem_cons_of_mem _ member⟩
    have member := mem_of_getElem? edge
    rw [pointSuccs] at member
    split at member
    · cases member
    rename_i i found
    split at member
    case isTrue terminator =>
      obtain ⟨target, inList, rfl⟩ := List.mem_map.mp member
      rw [← (laidOut _ linked).successorBlocks (mem_of_getElem? found) terminator] at inList
      obtain ⟨blockIndex, taken⟩ := getElem?_of_mem inList
      have atEnd := (laidOut _ linked).position (consistent.instsNodup _) found terminator
      refine ⟨_, blockWalk.step taken,
        fun j impossible => absurd impossible (Nat.not_lt_zero j), ?_⟩
      intro gone inBlocks j inside
      rcases mem_cons.mp inBlocks with newest | older
      · subst newest
        rcases Nat.lt_or_ge j point.2 with earlier | last
        · obtain ⟨taken, executed⟩ := current j earlier
          exact grow executed
        · have same : j = point.2 := by
            change j < (f.blockInsts point.1).length at inside
            omega
          exact ⟨index, mem_cons.mpr (.inl (by rw [same]))⟩
      · obtain ⟨taken, executed⟩ := left gone older j inside
        exact grow executed
    case isFalse =>
      rw [mem_singleton.mp member]
      refine ⟨blocks, blockWalk, ?_, ?_⟩
      · intro j inside
        rcases Nat.lt_succ_iff_lt_or_eq.mp inside with earlier | same
        · obtain ⟨taken, executed⟩ := current j earlier
          exact grow executed
        · exact ⟨index, mem_cons.mpr (.inl (by rw [same]))⟩
      · intro gone inBlocks j inside
        obtain ⟨taken, executed⟩ := left gone inBlocks j inside
        exact grow executed

theorem executed_of_lt {b : BlockId} {j k : ℕ} (before : j < k) :
    f.Executed (b, j) (b, k) := by
  induction k with
  | zero => exact absurd before (Nat.not_lt_zero j)
  | succ k ih =>
    have last : f.Executed (b, k) (b, k + 1) := Executed.next (b, k)
    rcases Nat.lt_succ_iff_lt_or_eq.mp before with earlier | same
    · exact (ih earlier).trans last
    · rw [same]
      exact last

section Accepted

open FunctionVerifier VerifyResult

variable {mod : Module} {fuel : ℕ} {tree : DominatorTree}

section

variable (consistent : f.Consistent) (defined : f.isDeclaration = false)
  (accepted : Accepted mod f fuel tree)
include consistent defined accepted

/-- A positive answer of the dominance query, at the level of points. -/
theorem executed_of_dominates {d b : BlockId} (different : d ≠ b)
    (answer : tree.dominates fuel d b = some true) {j k : ℕ} (inside : j < (f.blockInsts d).length) :
    f.Executed (d, j) (b, k) := by
  intro trail walk
  obtain ⟨blocks, blockWalk, -, left⟩ :=
    blockWalk_of_pointWalk defined (fun b => accepted.laidOut) consistent walk
  have settled := DominatorTree.compute_settled defined accepted.computed
  have dominates := settled.dominates_sound linkedBlocks_subset
    (fun b reached => consistent.ne_zero (linked_of_linkedBlocks defined reached)) answer
  obtain ⟨index, gone⟩ := (dominates blocks blockWalk).resolve_left different
  exact left (d, index) gone j inside

theorem use_available (reached : f.PointReached point) {i : InstId} (found : f.instAt point i)
    {v : ValueId} (used : v ∈ usesOf f i) (valid : f.isValidValue v = true) :
    f.AvailableAt v point := by
  obtain ⟨b, k⟩ := point
  have linked := reached.linked defined
  have member := mem_of_getElem? found
  have settled := DominatorTree.compute_settled defined accepted.computed
  have reachable : tree.reachable b = true := by
    obtain ⟨trail, walk⟩ := reached
    obtain ⟨blocks, blockWalk, -, -⟩ :=
      blockWalk_of_pointWalk defined (fun b => accepted.laidOut) consistent walk
    simpa [DominatorTree.reachable] using settled.listed linkedBlocks_subset ⟨blocks, blockWalk⟩
  rw [AvailableAt]
  cases kind : (f.value v).kind with
  | instResult =>
    rcases result_checked consistent accepted linked reachable found used valid kind
      with ⟨j, before, defined⟩ | ⟨otherBlock, inBlock, answer⟩
    · exact ⟨(b, j), defined, executed_of_lt before⟩
    · obtain ⟨j, atJ⟩ := getElem?_of_mem inBlock
      exact ⟨(_, j), atJ, executed_of_dominates consistent defined accepted otherBlock
        answer (List.getElem?_eq_some_iff.mp atJ).1⟩
  | blockParam =>
    rcases param_checked accepted linked reachable member used valid kind
      with same | ⟨otherBlock, answer⟩
    · simp only [same]
      cases k with
      | zero => exact .inl rfl
      | succ k => exact .inr (executed_of_lt (Nat.succ_pos k))
    · refine .inr ?_
      intro trail walk
      obtain ⟨blocks, blockWalk, -, left⟩ :=
        blockWalk_of_pointWalk defined (fun b => accepted.laidOut) consistent walk
      have valid : ∀ b, Cfg.Reached f.linkedBlocks f.entryBlock b → b ≠ 0 :=
        fun b reached => consistent.ne_zero (linked_of_linkedBlocks defined reached)
      obtain ⟨index, gone⟩ :=
        (settled.dominates_sound linkedBlocks_subset valid answer blocks
          blockWalk).resolve_left otherBlock
      have defLinked := linked_of_linkedBlocks defined (blockWalk.left gone).1
      exact left (_, index) gone 0 (accepted.laidOut defLinked).nonempty
  | _ => trivial

end

end Accepted

end Function

end Aburi.Air
