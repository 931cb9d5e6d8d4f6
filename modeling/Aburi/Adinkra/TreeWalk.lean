import Aburi.Adinkra.TreeEdits

/-!
# Walking the tree

`minimum` and `maximum` find the ends of a subtree, `next` and `previous` the
neighbours of a node in the order of the tree.
-/

namespace Aburi.Adinkra

open Lib

variable {Addr : Type}

theorem extreme_eq {s : Links Addr} {side : Side} {t : Shape Addr} {parent : Option Addr}
    {top : Addr} {fuel : Nat} (represented : Represents s.node t parent)
    (root : t.root = some top) (enough : t.inorder.length ≤ fuel) :
    ∃ path red found far, t = plug path (.branch side red .nil found far) ∧
      (∀ frame ∈ path, frame.side = side) ∧ extreme side s fuel top = some found := by
  induction fuel generalizing t parent top with
  | zero =>
    have member := List.length_pos_of_mem (Shape.mem_of_root root)
    omega
  | succ fuel ih =>
    obtain ⟨red, near, addr, far, rfl⟩ :=
      @Shape.exists_branch _ side t (by rintro rfl; simp [Shape.root] at root)
    obtain ⟨here, inNear, -⟩ := represents_branch.1 represented
    have : addr = top := by simpa using root
    subst this
    rw [extreme, here, NodeBase.linked_child]
    cases near with
    | nil => exact ⟨[], red, addr, far, rfl, by simp, rfl⟩
    | node nearRed left below right =>
      have shorter : (Shape.node nearRed left below right).inorder.length ≤ fuel := by
        have grown := length_le_plug [⟨side, red, addr, far⟩] (.node nearRed left below right)
        simp only [plug, Frame.fill, List.length_singleton] at grown
        omega
      obtain ⟨path, red', found, far', equality, along, result⟩ :=
        ih inNear rfl shorter
      refine ⟨path ++ [⟨side, red, addr, far⟩], red', found, far', ?_, ?_, result⟩
      · rw [plug_append, ← equality]
        rfl
      · intro frame member
        rw [List.mem_append, List.mem_singleton] at member
        rcases member with inner | rfl
        · exact along frame inner
        · rfl

/-- The nodes of a shape in the order in which a walk towards `side` meets them. -/
def listed (side : Side) (t : Shape Addr) : List Addr :=
  match side with
  | .right => t.inorder
  | .left => t.inorder.reverse

theorem listed_branch (side : Side) (red : Bool) (near far : Shape Addr) (addr : Addr) :
    listed side (.branch side red near addr far) = listed side far ++ addr :: listed side near := by
  cases side <;> simp [listed, Shape.branch, Shape.inorder]

/-- The nodes that a walk towards `side` meets after it has left the focus. -/
def ahead (side : Side) : List (Frame Addr) → List Addr
  | [] => []
  | frame :: rest =>
    (if frame.side = side then [] else frame.addr :: listed side frame.sibling) ++ ahead side rest

theorem ahead_right (path : List (Frame Addr)) : ahead .right path = after path := by
  induction path with
  | nil => rfl
  | cons frame rest ih =>
    obtain ⟨side, red, addr, sibling⟩ := frame
    cases side <;> simp [ahead, after, Frame.after, listed, ih]

theorem ahead_left (path : List (Frame Addr)) :
    ahead .left path = (before path).reverse := by
  induction path with
  | nil => rfl
  | cons frame rest ih =>
    obtain ⟨side, red, addr, sibling⟩ := frame
    cases side <;> simp [ahead, before, Frame.before, listed, ih]

/-- The end of the way down against `side` is where the walk towards `side` begins. -/
theorem head_listed_plug {side : Side} {path : List (Frame Addr)} {red : Bool}
    {found : Addr} {far : Shape Addr} (along : ∀ frame ∈ path, frame.side = side.other) :
    (listed side (plug path (.branch side.other red .nil found far))).head? = some found := by
  have start : (listed side (.branch side.other red .nil found far)).head? = some found := by
    rw [← Shape.branch_other, Side.other_other, listed_branch]
    cases side <;> simp [listed, Shape.inorder]
  generalize Shape.branch side.other red .nil found far = t at start
  induction path generalizing t with
  | nil => exact start
  | cons frame rest ih =>
    apply ih (fun other member => along other (.tail _ member))
    have sided := along frame (.head _)
    rw [Frame.fill, sided, ← Shape.branch_other, Side.other_other, listed_branch]
    cases first : listed side t with
    | nil => simp [first] at start
    | cons head tail => simpa [first] using start

variable [DecidableEq Addr]

theorem climb_eq {s : Links Addr} {side : Side} {path : List (Frame Addr)} {node : Addr}
    {fuel : Nat} (surrounded : s.Surrounds path (some node)) (fresh : node ∉ around path)
    (distinct : (around path).Nodup) (enough : path.length < fuel) :
    climb side s fuel node (parentOf path) = some (ahead side path).head? := by
  induction path generalizing node fuel with
  | nil =>
    obtain ⟨fuel, rfl⟩ := Nat.exists_eq_add_of_lt enough
    simp [climb, ahead]
  | cons frame rest ih =>
    obtain _ | fuel := fuel
    · omega
    obtain ⟨here, beside, above⟩ := surrounded
    obtain ⟨-, notAbove, aboveDistinct, -⟩ := nodup_around_cons distinct
    rw [parentOf_cons, climb]
    by_cases sided : frame.side = side
    · have linked : (s.node frame.addr).child side = some node := by
        rw [here, sided, NodeBase.linked_child]
      have parent : (s.node frame.addr).parent = parentOf rest := by
        rw [here, NodeBase.linked_parent]
      simp only [linked, if_pos, parent, ahead, sided, List.nil_append]
      exact ih above notAbove aboveDistinct (by
        simpa using enough)
    · have linked : (s.node frame.addr).child side = frame.sibling.root := by
        have opposite : side = frame.side.other := by
          cases side <;> cases other : frame.side <;> simp_all [Side.other]
        rw [here, opposite, NodeBase.linked_child_other]
      have notNode : some node ≠ frame.sibling.root := fun root =>
        fresh (mem_around_cons.2 (.inr (.inl (Shape.mem_of_root root.symm))))
      simp only [linked, if_neg notNode, ahead, if_neg sided]
      rfl

/-- The neighbour of a node towards `side`: `next` is the one to the right and
`previous` the one to the left. -/
def neighbour (side : Side) (fuel : Nat) (s : Links Addr) (node : Addr) :
    Option (Option Addr) :=
  match (s.node node).child side with
  | some below => (extreme side.other s fuel below).map some
  | none => climb side s fuel node (s.node node).parent

theorem next_eq (fuel : Nat) (s : Links Addr) (node : Addr) :
    next fuel s node = neighbour .right fuel s node := by
  rw [next, neighbour, NodeBase.child]
  cases (s.node node).right with
  | none | some below => rfl

theorem previous_eq (fuel : Nat) (s : Links Addr) (node : Addr) :
    previous fuel s node = neighbour .left fuel s node := by
  rw [previous, neighbour, NodeBase.child]
  cases (s.node node).left with
  | none | some below => rfl

theorem neighbour_eq {s : Links Addr} {side : Side} {path : List (Frame Addr)}
    {red : Bool} {near far : Shape Addr} {node : Addr} {fuel : Nat}
    (holds : s.Holds (plug path (.branch side red near node far)))
    (enough : (plug path (.branch side red near node far)).inorder.length ≤ fuel) :
    neighbour side fuel s node = some (listed side near ++ ahead side path).head? := by
  obtain ⟨outside, inside, distinct⟩ := Links.holds_plug.1 holds
  obtain ⟨here, inNear, -⟩ := represents_branch.1 inside
  obtain ⟨within, surroundings, apart⟩ := nodup_plug.1 distinct
  have counted := length_le_plug path (.branch side red near node far)
  have nearShorter : path.length + near.inorder.length + 1 ≤ fuel := by
    have grown := length_le_plug [⟨side, red, node, far⟩] near
    simp only [plug, Frame.fill, List.length_singleton] at grown
    omega
  rw [neighbour, here, NodeBase.linked_child, NodeBase.linked_parent]
  cases nearRoot : near.root with
  | none =>
    have empty := Shape.eq_nil_of_root nearRoot
    subst empty
    rw [Shape.root_branch] at outside
    have climbed := @climb_eq _ _ _ side _ _ fuel outside
      (apart node (Shape.mem_branch.2 (.inl rfl))) surroundings (by omega)
    rw [climbed]
    cases side <;> rfl
  | some below =>
    obtain ⟨inner, red', found, far', equality, along, result⟩ :=
      @extreme_eq _ s side.other near (some node) below fuel inNear nearRoot (by omega)
    have first : (listed side near).head? = some found := by
      rw [equality]
      exact head_listed_plug along
    rw [List.head?_append, first]
    simp only [result]
    rfl

end Aburi.Adinkra
