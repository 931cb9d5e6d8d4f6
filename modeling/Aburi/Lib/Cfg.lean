import Mathlib.Data.Set.Basic
import Mathlib.Logic.Function.Iterate
import Mathlib.Order.WellFounded

/-!
# Walks and dominance in a flow graph

A flow graph is an entry node and the ordered list of successors of each
node.  A walk from the entry records, newest first, the nodes it left and the
number of the edge by which it left them, so that a statement can be about
one edge of a node and not only about the node.
-/

namespace Aburi.Lib.Cfg

open List Function

variable {Node : Type} {succs : Node → List Node} {entry : Node}

inductive Walk (succs : Node → List Node) (entry : Node) :
    List (Node × ℕ) → Node → Prop
  | start : Walk succs entry [] entry
  | step {trail : List (Node × ℕ)} {node next : Node} {index : ℕ} :
      Walk succs entry trail node →
      (succs node)[index]? = some next →
      Walk succs entry ((node, index) :: trail) next

def Reached (succs : Node → List Node) (entry node : Node) : Prop :=
  ∃ trail, Walk succs entry trail node

/-- Every walk to `node` ends at `dominator` or has left it. -/
def Dominates (succs : Node → List Node) (entry dominator node : Node) : Prop :=
  ∀ trail, Walk succs entry trail node → dominator = node ∨ ∃ index, (dominator, index) ∈ trail

/-- Every walk to `node` has taken the edge. -/
def EdgeDominates (succs : Node → List Node) (entry : Node)
    (edge : Node × ℕ) (node : Node) : Prop :=
  ∀ trail, Walk succs entry trail node → edge ∈ trail

variable {trail : List (Node × ℕ)} {node : Node}

theorem Walk.induct (invariant : Node → Prop) (atEntry : invariant entry)
    (kept : ∀ node next, invariant node → next ∈ succs node → invariant next)
    (walk : Walk succs entry trail node) :
    invariant node := by
  induction walk with
  | start => exact atEntry
  | step _ edge holds => exact kept _ _ holds (mem_of_getElem? edge)

/-- A walk was at the nodes it left, and left them by edges they have. -/
theorem Walk.left (walk : Walk succs entry trail node) {taken : Node × ℕ} (member : taken ∈ trail) :
    Reached succs entry taken.1 ∧ taken.2 < (succs taken.1).length := by
  induction walk with
  | start => cases member
  | @step trail node next index before edge ih =>
    rcases List.mem_cons.mp member with newest | older
    · subst newest
      exact ⟨⟨trail, before⟩, (List.getElem?_eq_some_iff.mp edge).1⟩
    · exact ih older

/-- Every walk to `node` has left `earlier` before it arrived. -/
def Left (succs : Node → List Node) (entry earlier node : Node) : Prop :=
  ∀ trail, Walk succs entry trail node → ∃ index, (earlier, index) ∈ trail

theorem Walk.cut {earlier : Node} {index : ℕ} (walk : Walk succs entry trail node)
    (member : (earlier, index) ∈ trail) :
    ∃ shorter, Walk succs entry shorter earlier ∧ shorter.length < trail.length ∧
      ∀ taken ∈ shorter, taken ∈ trail := by
  induction walk with
  | start => cases member
  | @step trail node next taken before edge ih =>
    rcases List.mem_cons.mp member with newest | older
    · cases newest
      exact ⟨trail, before, Nat.lt_succ_self _, fun taken inside => mem_cons_of_mem _ inside⟩
    · obtain ⟨shorter, walk, shorterLength, inside⟩ := ih older
      exact ⟨shorter, walk, Nat.lt_succ_of_lt shorterLength,
        fun taken member => mem_cons_of_mem _ (inside taken member)⟩

theorem Left.trans {first second third : Node} (earlier : Left succs entry first second)
    (later : Left succs entry second third) : Left succs entry first third := by
  intro trail walk
  obtain ⟨index, member⟩ := later trail walk
  obtain ⟨shorter, cut, -, inside⟩ := walk.cut member
  obtain ⟨taken, left⟩ := earlier shorter cut
  exact ⟨taken, inside _ left⟩

/-- No two reached nodes have left each other: the shortest walk to one of
them would contain a shorter one. -/
theorem Left.asymm {first second : Node} (reached : Reached succs entry first)
    (forward : Left succs entry first second) (backward : Left succs entry second first) :
    False := by
  obtain ⟨trail, walk⟩ := reached
  induction bound : trail.length using Nat.strong_induction_on generalizing trail with
  | _ length ih =>
    obtain ⟨index, member⟩ := backward trail walk
    obtain ⟨middle, toSecond, shorterSecond, -⟩ := walk.cut member
    obtain ⟨taken, left⟩ := forward middle toSecond
    obtain ⟨shorter, toFirst, shorterFirst, -⟩ := toSecond.cut left
    exact ih shorter.length (by omega) shorter toFirst rfl

theorem Left.irrefl (reached : Reached succs entry node) (left : Left succs entry node node) :
    False :=
  left.asymm reached left

theorem Left.of_step {earlier next : Node} {index : ℕ} (edge : (succs node)[index]? = some next)
    (left : Left succs entry earlier next) :
    earlier = node ∨ Left succs entry earlier node := by
  by_cases same : earlier = node
  · exact .inl same
  right
  intro trail walk
  obtain ⟨taken, member⟩ := left _ (walk.step edge)
  rcases List.mem_cons.mp member with newest | older
  · cases newest
    exact absurd rfl same
  · exact ⟨taken, older⟩

/-- After a node with one successor comes that successor. -/
theorem Left.after_only {next last : Node} (only : succs node = [next])
    (left : Left succs entry node last) (different : last ≠ next) :
    Left succs entry next last := by
  have passed : ∀ {trail : List (Node × ℕ)} {last : Node},
      Walk succs entry trail last → ∀ index, (node, index) ∈ trail →
      last = next ∨ ∃ taken, (next, taken) ∈ trail := by
    intro trail last walk
    induction walk with
    | start => exact fun index member => nomatch member
    | @step trail middle last index before edge ih =>
      intro taken member
      rcases List.mem_cons.mp member with newest | older
      · cases newest
        rw [only] at edge
        exact .inl (List.mem_singleton.mp (mem_of_getElem? edge))
      · rcases ih taken older with here | ⟨later, gone⟩
        · exact .inr ⟨index, List.mem_cons.mpr (.inl (by rw [here]))⟩
        · exact .inr ⟨later, mem_cons_of_mem _ gone⟩
  intro trail walk
  obtain ⟨index, member⟩ := left trail walk
  exact (passed walk index member).resolve_left different

theorem Dominates.left {dominator : Node} (dominates : Dominates succs entry dominator node)
    (different : dominator ≠ node) :
    Left succs entry dominator node := by
  intro trail walk
  exact (dominates trail walk).resolve_left different

/-- A table of parents that passes each edge by moving up from its source is
a table of dominators: every ancestor of a node lies on every walk to it.
`live` is what has to be known of a node before its edges can be trusted. -/
theorem ancestor_dominates (parent : Node → Node) (live : Node → Prop)
    (rooted : parent entry = entry) (liveEntry : live entry)
    (edges : ∀ node next, live node → next ∈ succs node → next ≠ entry →
      live next ∧ ∃ steps, parent^[steps] node = parent next) {steps : ℕ} :
    Dominates succs entry (parent^[steps] node) node := by
  intro trail walk
  have allLive : ∀ {trail : List (Node × ℕ)} {node : Node},
      Walk succs entry trail node → live node := by
    intro trail node walk
    refine walk.induct live liveEntry ?_
    intro node next nodeLive edge
    by_cases atEntry : next = entry
    · exact atEntry ▸ liveEntry
    · exact (edges node next nodeLive edge atEntry).1
  induction walk generalizing steps with
  | start =>
    left
    exact iterate_fixed rooted steps
  | @step trail node next index before edge ih =>
    by_cases atEntry : next = entry
    · left
      rw [atEntry]
      exact iterate_fixed rooted steps
    · obtain ⟨-, up, passed⟩ := edges node next (allLive before) (mem_of_getElem? edge) atEntry
      cases steps with
      | zero =>
        left
        rfl
      | succ steps =>
        right
        have moved : parent^[steps + 1] next = parent^[steps + up] node := by
          rw [iterate_succ_apply, ← passed, ← iterate_add_apply]
        rw [moved]
        rcases @ih (steps + up) with same | ⟨taken, left⟩
        · exact ⟨index, by rw [same]; exact mem_cons_self⟩
        · exact ⟨taken, mem_cons_of_mem _ left⟩

end Aburi.Lib.Cfg
