import Aburi.Lib.Cfg
import Mathlib.Data.Set.Card
import Mathlib.Tactic.Linarith

/-!
# Dominators by iteration

A table of parents that is improved node by node, in an order of the nodes,
lies between two bounds: the ancestors of a node contain its dominators, and
every walk to the node that goes against the order less often than the node
was improved visits all of them.  Once a node was improved as often as there
are nodes, its ancestors are its dominators.
-/

namespace Aburi.Lib.Cfg

open List Nat Function

variable {Node : Type} {succs : Node → List Node} {entry : Node} {order : Node → ℕ}

/-- A walk with the number of its steps that do not go up in the order, and the
nodes it visited, newest first. -/
inductive Route (succs : Node → List Node) (entry : Node) (order : Node → ℕ) :
    ℕ → List Node → Node → Prop
  | start : Route succs entry order 0 [entry] entry
  | forward {retreats : ℕ} {visited : List Node} {node next : Node} :
      Route succs entry order retreats visited node → next ∈ succs node →
      order node < order next → Route succs entry order retreats (next :: visited) next
  | retreat {retreats : ℕ} {visited : List Node} {node next : Node} :
      Route succs entry order retreats visited node → next ∈ succs node →
      order next ≤ order node → Route succs entry order (retreats + 1) (next :: visited) next

namespace Route

variable {retreats : ℕ} {visited : List Node} {node : Node}

section

variable (route : Route succs entry order retreats visited node)
include route

theorem step {next : Node} (edge : next ∈ succs node) :
    ∃ more, retreats ≤ more ∧ Route succs entry order more (next :: visited) next := by
  rcases Nat.lt_or_ge (order node) (order next) with up | down
  · exact ⟨_, le_rfl, route.forward edge up⟩
  · exact ⟨_, le_succ _, route.retreat edge down⟩

theorem end_mem : node ∈ visited := by
  cases route <;> exact mem_cons_self

theorem toWalk :
    ∃ trail, Walk succs entry trail node ∧ visited = node :: trail.map Prod.fst := by
  induction route with
  | start => exact ⟨[], .start, rfl⟩
  | @forward retreats visited node next before edge up ih
  | @retreat retreats visited node next before edge down ih =>
    obtain ⟨trail, walk, rfl⟩ := ih
    obtain ⟨index, taken⟩ := getElem?_of_mem edge
    exact ⟨_, walk.step taken, rfl⟩

end

theorem ofWalk {trail : List (Node × ℕ)} (walk : Walk succs entry trail node) :
    ∃ retreats, Route succs entry order retreats (node :: trail.map Prod.fst) node := by
  induction walk with
  | start => exact ⟨0, .start⟩
  | step before edge ih =>
    obtain ⟨retreats, route⟩ := ih
    obtain ⟨more, -, longer⟩ := route.step (mem_of_getElem? edge)
    exact ⟨more, longer⟩

section

variable (route : Route succs entry order retreats visited node)
include route

theorem reached :
    Reached succs entry node := by
  obtain ⟨trail, walk, -⟩ := route.toWalk
  exact ⟨trail, walk⟩

theorem retreats_lt :
    retreats < visited.length := by
  induction route with
  | start => exact Nat.one_pos
  | forward _ _ _ ih => exact lt_succ_of_lt ih
  | retreat _ _ _ ih => exact succ_lt_succ ih

theorem cut {earlier : Node} (member : earlier ∈ visited) :
    ∃ fewer before, Route succs entry order fewer before earlier ∧ fewer ≤ retreats ∧
      before <:+ visited := by
  induction route with
  | start =>
    rw [mem_singleton.mp member]
    exact ⟨0, [entry], .start, le_rfl, suffix_rfl⟩
  | @forward retreats visited node next before edge up ih =>
    rcases mem_cons.mp member with rfl | older
    · exact ⟨_, _, before.forward edge up, le_rfl, suffix_rfl⟩
    · obtain ⟨fewer, shorter, route, atMost, suffix⟩ := ih older
      exact ⟨fewer, shorter, route, atMost, suffix.trans (suffix_cons _ _)⟩
  | @retreat retreats visited node next before edge down ih =>
    rcases mem_cons.mp member with rfl | older
    · exact ⟨_, _, before.retreat edge down, le_rfl, suffix_rfl⟩
    · obtain ⟨fewer, shorter, route, atMost, suffix⟩ := ih older
      exact ⟨fewer, shorter, route, atMost.trans (le_succ _), suffix.trans (suffix_cons _ _)⟩

/-- Some walk visits no node twice and only nodes of the given one. -/
theorem simple :
    ∃ fewer once, Route succs entry order fewer once node ∧ once.Nodup ∧ once ⊆ visited := by
  have continued : ∀ {visited : List Node} {node next : Node}, next ∈ succs node →
      (∃ fewer once, Route succs entry order fewer once node ∧ once.Nodup ∧ once ⊆ visited) →
      ∃ fewer once, Route succs entry order fewer once next ∧ once.Nodup ∧
        once ⊆ next :: visited := by
    rintro visited node next edge ⟨fewer, once, route, nodup, inside⟩
    by_cases again : next ∈ once
    · obtain ⟨least, before, cut, -, suffix⟩ := route.cut again
      exact ⟨least, before, cut, nodup.sublist suffix.sublist,
        subset_cons_of_subset _ (List.Subset.trans suffix.subset inside)⟩
    · obtain ⟨more, -, longer⟩ := route.step edge
      exact ⟨more, _, longer, nodup_cons.mpr ⟨again, nodup⟩, cons_subset_cons _ inside⟩
  induction route with
  | start => exact ⟨0, [entry], .start, nodup_singleton _, List.Subset.refl _⟩
  | forward _ edge _ ih | retreat _ edge _ ih => exact continued edge ih

end

/-- Behind a node of a walk that only goes up, the walk goes on above it. -/
theorem append_up {visited before : List Node} {node middle : Node} {retreats : ℕ}
    (route : Route succs entry order 0 visited node) (member : middle ∈ visited)
    (other : Route succs entry order retreats before middle) :
    order middle ≤ order node ∧ ∃ more longer, Route succs entry order more longer node ∧
      ∀ passed ∈ longer, passed ∈ before ∨ order middle < order passed := by
  generalize isZero : 0 = none at route
  induction route with
  | start =>
    rw [mem_singleton.mp member] at other ⊢
    exact ⟨le_rfl, _, _, other, fun passed inside => .inl inside⟩
  | @forward none visited last next _ edge up ih =>
    rcases mem_cons.mp member with rfl | older
    · exact ⟨le_rfl, _, _, other, fun passed inside => .inl inside⟩
    · obtain ⟨above, more, longer, route, passes⟩ := ih older isZero
      obtain ⟨more', -, route'⟩ := route.step edge
      refine ⟨above.trans up.le, more', _, route', ?_⟩
      intro passed inside
      rcases mem_cons.mp inside with rfl | earlier
      · exact .inr (Nat.lt_of_le_of_lt above up)
      · exact passes passed earlier
  | retreat => cases isZero

end Route

theorem dominates_iff_route {dominator node : Node} :
    Dominates succs entry dominator node ↔
      ∀ retreats visited, Route succs entry order retreats visited node → dominator ∈ visited := by
  constructor
  · intro dominates retreats visited route
    obtain ⟨trail, walk, rfl⟩ := route.toWalk
    rcases dominates trail walk with rfl | ⟨index, left⟩
    · exact mem_cons_self
    · exact mem_cons_of_mem _ (List.mem_map_of_mem left)
  · intro passes trail walk
    obtain ⟨retreats, route⟩ := @Route.ofWalk _ _ _ order _ _ walk
    rcases mem_cons.mp (passes _ _ route) with same | left
    · exact .inl same
    · obtain ⟨⟨_, index⟩, taken, rfl⟩ := List.mem_map.mp left
      exact .inr ⟨index, taken⟩

/-- Every walk with fewer retreats visits the node. -/
def Needed (succs : Node → List Node) (entry : Node) (order : Node → ℕ) (level : ℕ)
    (node dominator : Node) : Prop :=
  ∀ retreats visited, Route succs entry order retreats visited node → retreats < level →
    dominator ∈ visited

theorem Needed.self (level : ℕ) (node : Node) : Needed succs entry order level node node :=
  fun _ _ route _ => route.end_mem

/-- With as many retreats as there are nodes, walks need not be told apart. -/
theorem Needed.dominates {nodes : List Node} {level : ℕ} {node dominator : Node}
    (all : ∀ node, Reached succs entry node → node ∈ nodes) (many : nodes.length ≤ level)
    (needed : Needed succs entry order level node dominator) :
    Dominates succs entry dominator node := by
  rw [@dominates_iff_route _ _ _ order]
  intro retreats visited route
  obtain ⟨fewer, once, short, nodup, inside⟩ := route.simple
  apply inside
  apply needed fewer once short
  have listed : once ⊆ nodes := by
    intro passed member
    obtain ⟨_, _, toPassed, -⟩ := short.cut member
    exact all passed toPassed.reached
  exact short.retreats_lt.trans_le ((nodup.subperm listed).length_le.trans many)

/-- The node or one that its parents lead to. -/
def Above (parent : Node → Node) (node ancestor : Node) : Prop :=
  ∃ steps, parent^[steps] node = ancestor

namespace Above

variable {parent : Node → Node} {node ancestor : Node}

theorem refl (parent : Node → Node) (node : Node) : Above parent node node := ⟨0, rfl⟩

theorem parent_above (parent : Node → Node) (node : Node) : Above parent node (parent node) :=
  ⟨1, rfl⟩

theorem trans {middle : Node} (first : Above parent node middle)
    (second : Above parent middle ancestor) : Above parent node ancestor := by
  obtain ⟨low, rfl⟩ := first
  obtain ⟨high, rfl⟩ := second
  exact ⟨high + low, iterate_add_apply _ _ _ _⟩

theorem cases (above : Above parent node ancestor) :
    ancestor = node ∨ Above parent (parent node) ancestor := by
  obtain ⟨steps, rfl⟩ := above
  cases steps with
  | zero => exact .inl rfl
  | succ steps => exact .inr ⟨steps, rfl⟩

end Above

theorem above_update_of_not [DecidableEq Node] {parent : Node → Node} {changed found node : Node}
    (outside : ¬ Above parent node changed) (ancestor : Node) :
    Above (update parent changed found) node ancestor ↔ Above parent node ancestor := by
  have same : ∀ steps,
      (update parent changed found)^[steps] node = parent^[steps] node := by
    intro steps
    induction steps with
    | zero => rfl
    | succ steps ih =>
      rw [iterate_succ_apply', ih, iterate_succ_apply',
        update_of_ne]
      exact fun isChanged => outside ⟨steps, isChanged⟩
  simp only [Above, same]

/-- The table has an entry for the known nodes; each node was improved as often
as its level says. -/
structure Approximates (succs : Node → List Node) (entry : Node) (order : Node → ℕ)
    (known : Node → Prop) (level : Node → ℕ) (parent : Node → Node) : Prop where
  entryKnown : known entry
  root : parent entry = entry
  knownParent : ∀ node, known node → known (parent node)
  descends : ∀ node, known node → node ≠ entry → order (parent node) < order node
  positive : ∀ node, known node → node ≠ entry → 0 < level node
  upper : ∀ node ancestor, known node → Above parent node ancestor →
    Needed succs entry order (level node) node ancestor
  lower : ∀ node dominator, known node → Dominates succs entry dominator node →
    Above parent node dominator

/-- A parent that is found for a node: an ancestor of all known predecessors,
below all others. -/
structure Improves (succs : Node → List Node) (order : Node → ℕ) (known : Node → Prop)
    (parent : Node → Node) (node found : Node) : Prop where
  foundKnown : known found
  lower : order found < order node
  common : ∀ pred, known pred → node ∈ succs pred → Above parent pred found
  nearest : ∀ ancestor, (∀ pred, known pred → node ∈ succs pred → Above parent pred ancestor) →
    Above parent found ancestor

namespace Approximates

variable {known : Node → Prop} {level : Node → ℕ} {parent : Node → Node}
  (approximates : Approximates succs entry order known level parent)

include approximates

/-- Only the levels of known nodes other than the entry matter. -/
theorem congr {known' : Node → Prop} {level' : Node → ℕ}
    (sameKnown : ∀ node, known' node ↔ known node)
    (sameLevel : ∀ node, known node → node ≠ entry → level' node = level node) :
    Approximates succs entry order known' level' parent := by
  obtain rfl : known' = known := funext fun node => propext (sameKnown node)
  obtain ⟨entryKnown, root, knownParent, descends, positive, upper, lower⟩ := approximates
  refine ⟨entryKnown, root, knownParent, descends, ?_, ?_, lower⟩
  · intro node isKnown notEntry
    rw [sameLevel node isKnown notEntry]
    exact positive node isKnown notEntry
  · intro node ancestor isKnown above
    by_cases atEntry : node = entry
    · obtain ⟨steps, rfl⟩ := above
      rw [atEntry, iterate_fixed root]
      exact Needed.self _ _
    · rw [sameLevel node isKnown atEntry]
      exact upper node ancestor isKnown above

section

variable {node ancestor : Node} (isKnown : known node) (above : Above parent node ancestor)
include isKnown above

theorem known_above : known ancestor := by
  obtain ⟨steps, rfl⟩ := above
  induction steps generalizing node with
  | zero => exact isKnown
  | succ steps ih => exact ih (approximates.knownParent node isKnown)

theorem order_above : order ancestor ≤ order node := by
  obtain ⟨steps, rfl⟩ := above
  induction steps generalizing node with
  | zero => exact le_rfl
  | succ steps ih =>
    refine (ih (approximates.knownParent node isKnown)).trans ?_
    by_cases atEntry : node = entry
    · rw [atEntry, approximates.root]
    · exact (approximates.descends node isKnown atEntry).le

theorem order_lt_above (differs : ancestor ≠ node) :
    order ancestor < order node := by
  rcases above.cases with same | higher
  · exact absurd same differs
  · have notEntry : node ≠ entry := by
      rintro rfl
      obtain ⟨steps, rfl⟩ := above
      exact differs (iterate_fixed approximates.root steps)
    exact (approximates.order_above (approximates.knownParent node isKnown) higher).trans_lt
      (approximates.descends node isKnown notEntry)

end

theorem above_antisymm {node other : Node} (isKnown : known node) (above : Above parent node other)
    (below : Above parent other node) : other = node := by
  by_contra differs
  have lower := approximates.order_lt_above isKnown above differs
  have upper := approximates.order_above (approximates.known_above isKnown above) below
  omega

variable [DecidableEq Node]

variable {improved found : Node} (improves : Improves succs order known parent improved found)

include improves

omit [DecidableEq Node] in
theorem not_above_found : ¬ Above parent found improved := by
  intro above
  have := approximates.order_above improves.foundKnown above
  have := improves.lower
  omega

/-- The improved node has the found one and its ancestors above it. -/
theorem above_update_self (ancestor : Node) :
    Above (update parent improved found) improved ancestor ↔
      ancestor = improved ∨ Above parent found ancestor := by
  have keeps := @above_update_of_not _ _ parent improved found found
    (approximates.not_above_found improves) ancestor
  constructor
  · intro above
    rcases above.cases with same | higher
    · exact .inl same
    · rw [update_self] at higher
      exact .inr (keeps.mp higher)
  · rintro (rfl | above)
    · exact Above.refl _ _
    · refine Above.trans ⟨1, ?_⟩ (keeps.mpr above)
      exact update_self _ _ _

/-- Between a node and the improved one the ancestors stay. -/
theorem above_update {node : Node} (isKnown : known node) (through : Above parent node improved)
    (ancestor : Node) :
    Above (update parent improved found) node ancestor ↔
      Above parent node ancestor ∧ order improved ≤ order ancestor ∨
        Above parent found ancestor := by
  -- the improved node itself
  have top : known improved → (Above (update parent improved found) improved ancestor ↔
      Above parent improved ancestor ∧ order improved ≤ order ancestor ∨
        Above parent found ancestor) := by
    intro isKnown
    rw [approximates.above_update_self improves]
    apply or_congr_left
    constructor
    · rintro rfl
      exact ⟨Above.refl _ _, le_rfl⟩
    · rintro ⟨above, high⟩
      by_contra differs
      have := approximates.order_lt_above isKnown above differs
      omega
  obtain ⟨steps, isImproved⟩ := through
  induction steps generalizing node with
  | zero =>
    have isNode : node = improved := isImproved
    subst isNode
    exact top isKnown
  | succ steps ih =>
    by_cases isNode : node = improved
    · subst isNode
      exact top isKnown
    have rest := ih (approximates.knownParent node isKnown) isImproved
    have step : Above (update parent improved found) node (parent node) :=
      ⟨1, update_of_ne isNode _ _⟩
    constructor
    · intro above
      rcases above.cases with rfl | higher
      · exact .inl ⟨Above.refl _ _, approximates.order_above isKnown ⟨steps + 1, isImproved⟩⟩
      · rw [update_of_ne isNode] at higher
        rcases rest.mp higher with ⟨above, high⟩ | above
        · exact .inl ⟨(Above.parent_above parent node).trans above, high⟩
        · exact .inr above
    · rintro (⟨above, high⟩ | above)
      · rcases above.cases with rfl | higher
        · exact Above.refl _ _
        · exact step.trans (rest.mpr (.inl ⟨higher, high⟩))
      · exact step.trans (rest.mpr (.inr above))

omit [DecidableEq Node] in
/-- What is above the found parent is needed on the way to the improved node. -/
theorem needed_of_above_found {next : ℕ} (notEntry : improved ≠ entry)
    (forward : ∀ pred, Reached succs entry pred → improved ∈ succs pred →
      order pred < order improved → known pred ∧ next ≤ level pred)
    (back : ∀ pred, Reached succs entry pred → improved ∈ succs pred →
      order improved ≤ order pred → 1 < next → known pred ∧ next ≤ level pred + 1)
    {ancestor : Node} (above : Above parent found ancestor) :
    Needed succs entry order next improved ancestor := by
  have needed : ∀ pred, known pred → improved ∈ succs pred →
      Needed succs entry order (level pred) pred ancestor := by
    intro pred isKnown edge
    exact approximates.upper pred ancestor isKnown ((improves.common pred isKnown edge).trans above)
  intro retreats visited route few
  cases route with
  | start => exact absurd rfl notEntry
  | @forward _ visited pred _ before edge up =>
    obtain ⟨isKnown, levels⟩ := forward pred before.reached edge up
    exact mem_cons_of_mem _ (needed pred isKnown edge retreats visited before (few.trans_le levels))
  | @retreat retreats visited pred _ before edge down =>
    obtain ⟨isKnown, levels⟩ := back pred before.reached edge down (by omega)
    exact mem_cons_of_mem _ (needed pred isKnown edge retreats visited before (by omega))

omit [DecidableEq Node] in
theorem above_found_of_dominates {dominator : Node} (differs : dominator ≠ improved)
    (dominates : Dominates succs entry dominator improved) : Above parent found dominator := by
  apply improves.nearest
  intro pred isKnown edge
  apply approximates.lower pred dominator isKnown
  rw [@dominates_iff_route _ _ _ order] at dominates ⊢
  intro retreats visited route
  obtain ⟨more, -, longer⟩ := route.step edge
  exact (mem_cons.mp (dominates _ _ longer)).resolve_left differs

/-- An improvement keeps both bounds and raises the level of the node. -/
theorem improve {next : ℕ} (notEntry : improved ≠ entry) (positive : 0 < next)
    (climbs : ∀ node, known node → ∃ visited, Route succs entry order 0 visited node)
    (forward : ∀ pred, Reached succs entry pred → improved ∈ succs pred →
      order pred < order improved → known pred ∧ next ≤ level pred)
    (back : ∀ pred, Reached succs entry pred → improved ∈ succs pred →
      order improved ≤ order pred → 1 < next → known pred ∧ next ≤ level pred + 1)
    (levels : ∀ node, known node → order improved < order node → level node ≤ next) :
    Approximates succs entry order (fun node => known node ∨ node = improved)
      (update level improved next) (update parent improved found) := by
  have upperFound : ∀ ancestor, Above parent found ancestor →
      Needed succs entry order next improved ancestor :=
    fun _ => approximates.needed_of_above_found improves notEntry forward back
  -- a lower dominator of a node above which the improved one stands dominates that one
  have dominatesImproved : ∀ {node dominator : Node}, known node → Above parent node improved →
      Dominates succs entry dominator node → order dominator < order improved →
      Dominates succs entry dominator improved := by
    intro node dominator isKnown through dominates lower
    rw [@dominates_iff_route _ _ _ order] at dominates ⊢
    intro retreats visited route
    obtain ⟨up, climbing⟩ := climbs node isKnown
    have nodeNotEntry : node ≠ entry := by
      rintro rfl
      obtain ⟨steps, rfl⟩ := through
      exact notEntry (iterate_fixed approximates.root steps)
    have onTheWay : improved ∈ up := approximates.upper node improved isKnown through 0 up climbing
      (approximates.positive node isKnown nodeNotEntry)
    obtain ⟨-, more, longer, whole, passes⟩ := climbing.append_up onTheWay route
    rcases passes dominator (dominates _ _ whole) with before | after
    · exact before
    · omega
  refine ⟨.inl approximates.entryKnown, ?_, ?_, ?_, ?_, ?_, ?_⟩
  · rw [update_of_ne notEntry.symm]
    exact approximates.root
  · intro node isKnown
    by_cases isNode : node = improved
    · rw [isNode, update_self]
      exact .inl improves.foundKnown
    · rw [update_of_ne isNode]
      exact .inl (approximates.knownParent node (isKnown.resolve_right isNode))
  · intro node isKnown nodeNotEntry
    by_cases isNode : node = improved
    · rw [isNode, update_self]
      exact improves.lower
    · rw [update_of_ne isNode]
      exact approximates.descends node (isKnown.resolve_right isNode) nodeNotEntry
  · intro node isKnown nodeNotEntry
    by_cases isNode : node = improved
    · rw [isNode, update_self]
      exact positive
    · rw [update_of_ne isNode]
      exact approximates.positive node (isKnown.resolve_right isNode) nodeNotEntry
  · intro node ancestor isKnown above
    by_cases isNode : node = improved
    · subst isNode
      rw [update_self]
      rcases (approximates.above_update_self improves ancestor).mp above with rfl | higher
      · exact Needed.self _ _
      · exact upperFound ancestor higher
    · have nodeKnown := isKnown.resolve_right isNode
      rw [update_of_ne isNode]
      by_cases through : Above parent node improved
      · rcases (approximates.above_update improves nodeKnown through ancestor).mp above with
          ⟨old, -⟩ | higher
        · exact approximates.upper node ancestor nodeKnown old
        · have lower := approximates.order_lt_above nodeKnown through (Ne.symm isNode)
          intro retreats visited route few
          have passes :=
            approximates.upper node improved nodeKnown through retreats visited route few
          obtain ⟨fewer, before, cut, atMost, suffix⟩ := route.cut passes
          apply suffix.subset
          apply upperFound ancestor higher fewer before cut
          have := levels node nodeKnown lower
          omega
      · exact approximates.upper node ancestor nodeKnown ((above_update_of_not through _).mp above)
  · intro node dominator isKnown dominates
    by_cases isNode : node = improved
    · subst isNode
      rw [approximates.above_update_self improves]
      by_cases differs : dominator = node
      · exact .inl differs
      · exact .inr (approximates.above_found_of_dominates improves differs dominates)
    · have nodeKnown := isKnown.resolve_right isNode
      have old := approximates.lower node dominator nodeKnown dominates
      by_cases through : Above parent node improved
      · rw [approximates.above_update improves nodeKnown through]
        by_cases high : order improved ≤ order dominator
        · exact .inl ⟨old, high⟩
        · right
          have lower := not_le.mp high
          refine approximates.above_found_of_dominates improves ?_
            (dominatesImproved nodeKnown through dominates lower)
          rintro rfl
          exact lt_irrefl _ lower
      · exact (above_update_of_not through _).mpr old

omit [DecidableEq Node] in
/-- Where ancestors are dominators already, nothing is left to improve. -/
theorem found_eq {nodes : List Node} {next : ℕ} (notEntry : improved ≠ entry)
    (isKnown : known improved)
    (forward : ∀ pred, Reached succs entry pred → improved ∈ succs pred →
      order pred < order improved → known pred ∧ next ≤ level pred)
    (back : ∀ pred, Reached succs entry pred → improved ∈ succs pred →
      order improved ≤ order pred → 1 < next → known pred ∧ next ≤ level pred + 1)
    (all : ∀ node, Reached succs entry node → node ∈ nodes) (many : nodes.length ≤ next)
    (manyBefore : nodes.length ≤ level improved) : found = parent improved := by
  have parentKnown := approximates.knownParent improved isKnown
  have lower := approximates.descends improved isKnown notEntry
  apply approximates.above_antisymm parentKnown
  · -- the parent's ancestors contain the dominators
    have needed := approximates.needed_of_above_found improves notEntry forward back
      (Above.refl parent found)
    have above := approximates.lower improved found isKnown (needed.dominates all many)
    rcases above.cases with same | higher
    · have := improves.lower
      rw [same] at this
      omega
    · exact higher
  · apply approximates.above_found_of_dominates improves
    · intro same
      rw [same] at lower
      omega
    · exact (approximates.upper improved _ isKnown (Above.parent_above parent improved)).dominates
        all manyBefore

end Approximates

end Aburi.Lib.Cfg
