import Aburi.Adinkra.Tree
import Aburi.Lib.RedBlack

/-!
# Edits of the tree

One rule for each way in which the runtime changes the links: a rotation turns the
focus, a transplant puts another subtree in the place of the focus, and the painting
of a node changes its colour bit only.
-/

namespace Aburi.Adinkra

open Lib List Option

variable {Addr : Type}

variable {s : Links Addr} {path : List (Frame Addr)} {t : Shape Addr}

theorem isRed_root (holds : s.Holds (plug path t)) : isRed s t.root = t.isRed := by
  cases t with
  | nil => rfl
  | node red left addr right =>
    have links := (Links.holds_plug.1 holds).2.1.1
    rw [Shape.root, isRed, links, Shape.isRed]

theorem isBlack_root (holds : s.Holds (plug path t)) : isBlack s t.root = !t.isRed := by
  rw [isBlack, isRed_root holds]

variable {frame : Frame Addr} {rest : List (Frame Addr)} {node : Addr}

/-- The child that a parent is, told by looking at the left link. -/
theorem eq_left_iff (holds : s.Holds (plug (frame :: rest) t)) (root : t.root = some node) :
    some node = (s.node frame.addr).left ↔ frame.side = .left := by
  obtain ⟨side, red, addr, sibling⟩ := frame
  have links := holds.parent_eq
  cases side with
  | left => simp [links, NodeBase.linked, root]
  | right =>
    have different := holds.sibling_ne root
    simpa [links, NodeBase.linked] using different

variable {red : Bool}

/-- The child that a possibly empty focus is, told by looking at the left link. -/
theorem root_eq_left_iff {side : Side} {parent : Addr} {sibling : Shape Addr}
    (holds : s.Holds (plug (⟨side, red, parent, sibling⟩ :: rest) t)) (nonempty : sibling ≠ .nil) :
    t.root = (s.node parent).left ↔ side = .left := by
  cases root : t.root with
  | some node => exact eq_left_iff holds root
  | none =>
    have links := holds.parent_eq
    obtain ⟨top, siblingRoot⟩ := Shape.exists_root nonempty
    cases side with
    | left => simp [links, NodeBase.linked, root]
    | right => simp [links, NodeBase.linked, siblingRoot]

variable [DecidableEq Addr]

theorem relink_cons (side : Side) (replacement : Option Addr)
    (surrounded : s.Surrounds (frame :: rest) (some node))
    (parent : (s.node node).parent = some frame.addr) (fresh : node ∉ around (frame :: rest)) :
    relink side s node replacement = s.setChild frame.addr frame.side replacement := by
  have here := surrounded.1
  simp only [relink, parent]
  by_cases same : frame.side = side
  · rw [if_pos (by rw [here, ← same, NodeBase.linked_child]), same]
  · have opposite : side.other = frame.side := by
      cases side <;> cases hside : frame.side <;> simp_all [Side.other]
    rw [if_neg, opposite]
    intro found
    have sibling : frame.sibling.root = some node := by
      rw [← found, here, ← Side.other_other side, opposite, NodeBase.linked_child_other]
    exact fresh (mem_around_cons.2 (.inr (.inl (Shape.mem_of_root sibling))))

theorem surrounds_relink (side : Side) (replacement : Option Addr)
    (surrounded : s.Surrounds path (some node)) (parent : (s.node node).parent = parentOf path)
    (fresh : node ∉ around path) (distinct : (around path).Nodup) :
    (relink side s node replacement).Surrounds path replacement := by
  cases path with
  | nil =>
    rw [parentOf_nil] at parent
    simp only [relink, parent]
    rfl
  | cons frame rest =>
    rw [relink_cons side replacement surrounded parent fresh]
    obtain ⟨here, beside, above⟩ := surrounded
    obtain ⟨notBeside, notAbove, -, -⟩ := nodup_around_cons distinct
    refine ⟨?_, beside.congr ?_, above.congr rfl ?_⟩
    · rw [Links.setChild_node, if_pos rfl, here, NodeBase.linked_setChild]
    · intro a member
      rw [Links.setChild_node, if_neg (ne_of_mem_of_not_mem member notBeside)]
    · intro a member
      rw [Links.setChild_node, if_neg (ne_of_mem_of_not_mem member notAbove)]

theorem relink_node {a : Addr} (side : Side) (replacement : Option Addr)
    (parent : (s.node node).parent = parentOf path) (outside : a ∉ around path) :
    (relink side s node replacement).node a = s.node a := by
  cases path with
  | nil =>
    rw [parentOf_nil] at parent
    simp only [relink, parent]
  | cons frame rest =>
    have apart : a ≠ frame.addr := by
      rintro rfl
      exact outside (mem_around_cons.2 (.inl rfl))
    rw [parentOf_cons] at parent
    simp only [relink, parent]
    split
    · rw [Links.setChild_node, if_neg apart]
    · rw [Links.setChild_node, if_neg apart]

theorem setParentOf_node (s : Links Addr) (target link : Option Addr) (a : Addr) :
    (setParentOf s target link).node a =
      if target = some a then { s.node a with parent := link } else s.node a := by
  cases target with
  | none => simp [setParentOf]
  | some node =>
    rw [setParentOf, Links.setParent_node]
    by_cases same : a = node
    · subst same
      simp
    · rw [if_neg same, if_neg (by simpa using Ne.symm same)]

@[simp]
theorem setParentOf_root (s : Links Addr) (target link : Option Addr) :
    (setParentOf s target link).root = s.root := by
  cases target <;> rfl

/-- A rotation towards `side` turns the focus, whatever the colours are. -/
theorem rotate_holds {side : Side} {pivotRed : Bool} {near inner far : Shape Addr} {pivot : Addr}
    (holds : s.Holds
      (plug path (.branch side red near node (.branch side pivotRed inner pivot far)))) :
    ∃ s', rotate side s node = some s' ∧
      s'.Holds
        (plug path (.branch side pivotRed (.branch side red near node inner) pivot far)) := by
  obtain ⟨outside, inside, distinct⟩ := Links.holds_plug.1 holds
  obtain ⟨nodeLinks, inNear, inPivot⟩ := represents_branch.1 inside
  obtain ⟨pivotLinks, inInner, inFar⟩ := represents_branch.1 inPivot
  obtain ⟨within, surroundings, apart⟩ := nodup_plug.1 distinct
  obtain ⟨-, below, nodeNear, nodeBelow, nearBelow⟩ := Shape.nodup_branch.1 within
  obtain ⟨innerDistinct, -, pivotInner, pivotFar, innerFar⟩ := Shape.nodup_branch.1 below
  simp only [Shape.mem_branch, not_or] at nodeBelow
  obtain ⟨nodePivot, nodeInner, nodeFar⟩ := nodeBelow
  have pivotNear : pivot ∉ near.inorder := fun member =>
    nearBelow member (Shape.mem_branch.2 (.inl rfl))
  rw [Shape.root_branch] at nodeLinks outside
  have nodeOutside : node ∉ around path := apart _ (Shape.mem_branch.2 (.inl rfl))
  have pivotOutside : pivot ∉ around path := apart _ (by simp [Shape.mem_branch])
  have innerOutside : ∀ a, inner.root = some a → a ∉ around path := fun a root =>
    apart _ (by simp [Shape.mem_branch, Shape.mem_of_root root])
  -- the memory before the link to the focus is changed
  let first := s.setChild node side.other inner.root
  let second := setParentOf first inner.root (some node)
  let third := second.setParent pivot (parentOf path)
  have second_node : ∀ a, second.node a =
      if a = node then .linked side red near.root inner.root (parentOf path)
      else if inner.root = some a then { s.node a with parent := some node }
      else s.node a := by
    intro a
    simp only [second, first, setParentOf_node, Links.setChild_node]
    by_cases isNode : a = node
    · subst isNode
      have : ¬inner.root = some a := fun root => nodeInner (Shape.mem_of_root root)
      rw [if_neg this, if_pos rfl, if_pos rfl, nodeLinks, NodeBase.linked_setChild_other]
    · rw [if_neg isNode, if_neg isNode]
  have third_node : ∀ a, a ≠ node → a ≠ pivot → inner.root ≠ some a → third.node a = s.node a := by
    intro a isNode isPivot isInner
    rw [Links.setParent_node, if_neg isPivot, second_node, if_neg isNode, if_neg isInner]
  have third_focus : third.node node = .linked side red near.root inner.root (parentOf path) := by
    rw [Links.setParent_node, if_neg nodePivot, second_node, if_pos rfl]
  have third_pivot : third.node pivot =
      .linked side pivotRed inner.root far.root (parentOf path) := by
    have : ¬inner.root = some pivot := fun root => pivotInner (Shape.mem_of_root root)
    rw [Links.setParent_node, if_pos rfl, second_node, if_neg (Ne.symm nodePivot),
      if_neg this, pivotLinks, NodeBase.linked_setParent]
  have third_outside : third.Surrounds path (some node) := by
    refine outside.congr (by simp [third, second, first]) fun a member => ?_
    exact third_node a (ne_of_mem_of_not_mem member nodeOutside)
      (ne_of_mem_of_not_mem member pivotOutside) fun root => innerOutside a root member
  let fourth := relink side third node (some pivot)
  have fourth_outside : fourth.Surrounds path (some pivot) :=
    surrounds_relink side _ third_outside (by rw [third_focus, NodeBase.linked_parent])
      nodeOutside surroundings
  have fourth_node : ∀ a, a ∉ around path → fourth.node a = third.node a := fun a away =>
    relink_node side _ (by rw [third_focus, NodeBase.linked_parent]) away
  let last := (fourth.setChild pivot side (some node)).setParent node (some pivot)
  have last_node : ∀ a, a ≠ node → a ≠ pivot → last.node a = fourth.node a := by
    intro a isNode isPivot
    rw [Links.setParent_node, if_neg isNode, Links.setChild_node, if_neg isPivot]
  refine ⟨last, ?_, ?_⟩
  · have pivotLinked : (s.node node).child side.other = some pivot := by
      rw [nodeLinks, NodeBase.linked_child_other]
    have innerLinked : (s.node pivot).child side = inner.root := by
      rw [pivotLinks, NodeBase.linked_child]
    have innerStays : ((s.setChild node side.other inner.root).node pivot).child side =
        inner.root := by
      rw [Links.setChild_node, if_neg (Ne.symm nodePivot), innerLinked]
    have nodeParent : ((setParentOf (s.setChild node side.other inner.root) inner.root
        (some node)).node node).parent = parentOf path := by
      rw [second_node, if_pos rfl, NodeBase.linked_parent]
    simp only [rotate, pivotLinked, bind_eq_bind, bind_some]
    rw [innerLinked, innerStays, nodeParent]
  · apply holds.replace (Shape.inorder_rotate side _ _ _ _ near inner far node pivot)
    · rw [Shape.root_branch]
      refine fourth_outside.congr rfl fun a member => ?_
      exact last_node a (ne_of_mem_of_not_mem member nodeOutside)
        (ne_of_mem_of_not_mem member pivotOutside)
    · rw [represents_branch, represents_branch, Shape.root_branch]
      refine ⟨?_, ⟨?_, inNear.congr ?_, inInner.reparent innerDistinct ?_ ?_⟩, inFar.congr ?_⟩
      · rw [Links.setParent_node, if_neg (Ne.symm nodePivot), Links.setChild_node,
          if_pos rfl, fourth_node _ pivotOutside, third_pivot, NodeBase.linked_setChild]
      · rw [Links.setParent_node, if_pos rfl, Links.setChild_node, if_neg nodePivot,
          fourth_node _ nodeOutside, third_focus, NodeBase.linked_setParent]
      · intro a member
        have isNode := ne_of_mem_of_not_mem member nodeNear
        have isPivot := ne_of_mem_of_not_mem member pivotNear
        rw [last_node a isNode isPivot, fourth_node a (apart a (by
          simp [Shape.mem_branch, member])), third_node a isNode isPivot]
        intro root
        exact nearBelow member (by simp [Shape.mem_branch, Shape.mem_of_root root])
      · intro a root
        have member := Shape.mem_of_root root
        have isNode := ne_of_mem_of_not_mem member nodeInner
        have isPivot := ne_of_mem_of_not_mem member pivotInner
        rw [last_node a isNode isPivot, fourth_node a (innerOutside a root),
          Links.setParent_node, if_neg isPivot, second_node, if_neg isNode, if_pos root]
      · intro a member notRoot
        have isNode := ne_of_mem_of_not_mem member nodeInner
        have isPivot := ne_of_mem_of_not_mem member pivotInner
        rw [last_node a isNode isPivot, fourth_node a (apart a (by
          simp [Shape.mem_branch, member])), third_node a isNode isPivot notRoot]
      · intro a member
        have isNode := ne_of_mem_of_not_mem member nodeFar
        have isPivot := ne_of_mem_of_not_mem member pivotFar
        rw [last_node a isNode isPivot, fourth_node a (apart a (by
          simp [Shape.mem_branch, member])), third_node a isNode isPivot]
        intro root
        exact innerFar (Shape.mem_of_root root) member

variable {removed : Addr}

theorem transplant_node {a : Addr} {replacement : Option Addr}
    (parent : (s.node removed).parent = parentOf path) (removedOutside : removed ∉ around path)
    (outside : a ∉ around path) :
    (transplant s removed replacement).node a =
      if replacement = some a then { s.node a with parent := parentOf path }
      else s.node a := by
  rw [transplant, setParentOf_node, relink_node _ _ parent outside,
    relink_node _ _ parent removedOutside, parent]

theorem surrounds_transplant {replacement : Option Addr}
    (surrounded : s.Surrounds path (some removed))
    (parent : (s.node removed).parent = parentOf path) (removedOutside : removed ∉ around path)
    (replacementOutside : ∀ a, replacement = some a → a ∉ around path)
    (distinct : (around path).Nodup) :
    (transplant s removed replacement).Surrounds path replacement := by
  refine (surrounds_relink .left replacement surrounded parent removedOutside distinct).congr ?_ ?_
  · rw [transplant, setParentOf_root]
  · intro a member
    rw [transplant, setParentOf_node, if_neg]
    exact fun root => replacementOutside a root member

/-- A node without a child on `side` is replaced by its other child. -/
theorem transplant_holds {s : Links Addr} {path : List (Frame Addr)} {side : Side}
    {red : Bool} {only : Shape Addr} {removed : Addr}
    (holds : s.Holds (plug path (.branch side red .nil removed only))) :
    (transplant s removed only.root).Holds (plug path only) := by
  obtain ⟨outside, inside, distinct⟩ := Links.holds_plug.1 holds
  obtain ⟨links, -, inOnly⟩ := represents_branch.1 inside
  obtain ⟨within, surroundings, apart⟩ := nodup_plug.1 distinct
  obtain ⟨-, onlyDistinct, -, removedOnly, -⟩ := Shape.nodup_branch.1 within
  rw [Shape.root_branch] at outside
  have parent : (s.node removed).parent = parentOf path := by
    rw [links, NodeBase.linked_parent]
  have removedOutside := apart removed (Shape.mem_branch.2 (.inl rfl))
  have onlyOutside : ∀ a ∈ only.inorder, a ∉ around path := fun a member =>
    apart a (Shape.mem_branch.2 (.inr (.inr member)))
  refine Links.holds_plug.2 ⟨?_, ?_, nodup_plug_sublist distinct (Shape.sublist_branch ..)⟩
  · exact surrounds_transplant outside parent removedOutside
      (fun a root => onlyOutside a (Shape.mem_of_root root)) surroundings
  · refine inOnly.reparent onlyDistinct ?_ ?_
    · intro a root
      rw [transplant_node parent removedOutside (onlyOutside a (Shape.mem_of_root root)),
        if_pos root]
    · intro a member notRoot
      rw [transplant_node parent removedOutside (onlyOutside a member), if_neg notRoot]

/-- The memory in which `moved`, no longer in the tree, has the right subtree of
`removed` below it. -/
structure Detached (s : Links Addr) (path : List (Frame Addr)) (red : Bool)
    (left right : Shape Addr) (removed moved : Addr) : Prop where
  outside : s.Surrounds path (some removed)
  parent : (s.node removed).parent = parentOf path
  removedLeft : (s.node removed).left = left.root
  removedRed : (s.node removed).red = red
  movedRight : (s.node moved).right = right.root
  inLeft : Represents s.node left (some removed)
  inRight : Represents s.node right (some moved)

/-- With the right subtree of `removed` already below `moved`, which is nowhere else
in the tree, `moved` takes the place of `removed`. -/
theorem replaceRemoved_holds {left right : Shape Addr} {moved : Addr}
    (detached : Detached s path red left right removed moved) (leftNonempty : left ≠ .nil)
    (removedOutside : removed ∉ around path)
    (removedFresh : removed ∉ (Shape.node red left moved right).inorder)
    (distinct : (plug path (.node red left moved right)).inorder.Nodup) :
    ∃ s', replaceRemoved s removed moved = some s' ∧
      s'.Holds (plug path (.node red left moved right)) := by
  obtain ⟨outside, parent, removedLeft, removedRed, movedRight, inLeft, inRight⟩ := detached
  obtain ⟨within, surroundings, apart⟩ := nodup_plug.1 distinct
  obtain ⟨leftDistinct, -, movedLeft, movedNotRight, leftRight⟩ :=
    (@Shape.nodup_branch _ .left red _ _ _).1 within
  obtain ⟨top, leftRoot⟩ := Shape.exists_root leftNonempty
  have topMember := Shape.mem_of_root leftRoot
  have movedOutside : moved ∉ around path := apart moved (by simp [Shape.inorder])
  have leftOutside : ∀ a ∈ left.inorder, a ∉ around path := fun a member =>
    apart a (by simp [Shape.inorder, member])
  have rightOutside : ∀ a ∈ right.inorder, a ∉ around path := fun a member =>
    apart a (by simp [Shape.inorder, member])
  simp only [Shape.inorder, mem_append, mem_cons, not_or] at removedFresh
  obtain ⟨removedNotLeft, removedMoved, removedNotRight⟩ := removedFresh
  -- the memory after the transplant, away from the path
  let first := transplant s removed (some moved)
  have first_outside : first.Surrounds path (some moved) := by
    refine surrounds_transplant outside parent removedOutside ?_ surroundings
    rintro a ⟨rfl⟩
    exact movedOutside
  have first_node : ∀ a, a ∉ around path → a ≠ moved → first.node a = s.node a := by
    intro a away other
    rw [transplant_node parent removedOutside away, if_neg (by simpa using Ne.symm other)]
  have first_moved : first.node moved = { s.node moved with parent := parentOf path } := by
    rw [transplant_node parent removedOutside movedOutside, if_pos rfl]
  let second := first.setChild moved .left left.root
  let third := second.setParent top (some moved)
  let last := third.setRed moved red
  have topMoved : top ≠ moved := ne_of_mem_of_not_mem topMember movedLeft
  have last_node : ∀ a, a ≠ moved → a ≠ top → last.node a = first.node a := by
    intro a isMoved isTop
    rw [Links.setRed_node, if_neg isMoved, Links.setParent_node, if_neg isTop,
      Links.setChild_node, if_neg isMoved]
  refine ⟨last, ?_, Links.holds_plug.2 ⟨?_, ⟨?_, ?_, ?_⟩, distinct⟩⟩
  · have leftLinked : (first.node removed).left = left.root := by
      rw [first_node removed removedOutside removedMoved, removedLeft]
    have movedLinked : (second.node moved).left = some top := by
      rw [Links.setChild_node, if_pos rfl, ← leftRoot]
      rfl
    have removedColour : (third.node removed).red = red := by
      rw [Links.setParent_node, if_neg (ne_of_mem_of_not_mem topMember removedNotLeft).symm,
        Links.setChild_node, if_neg removedMoved,
        first_node removed removedOutside removedMoved, removedRed]
    simp only [replaceRemoved, leftLinked, movedLinked, removedColour,
      bind_eq_bind, bind_some, first, second, third, last]
  · refine first_outside.congr rfl fun a member => ?_
    exact last_node a (ne_of_mem_of_not_mem member movedOutside)
      (ne_of_mem_of_not_mem member (leftOutside top topMember))
  · rw [Links.setRed_node, if_pos rfl, Links.setParent_node, if_neg topMoved.symm,
      Links.setChild_node, if_pos rfl, first_moved, ← movedRight]
    rfl
  · refine inLeft.reparent leftDistinct ?_ ?_
    · intro a root
      have : a = top := by simpa [leftRoot] using root.symm
      subst this
      rw [Links.setRed_node, if_neg topMoved, Links.setParent_node, if_pos rfl,
        Links.setChild_node, if_neg topMoved,
        first_node a (leftOutside a topMember) topMoved]
    · intro a member notRoot
      have isTop : a ≠ top := by
        rintro rfl
        exact notRoot leftRoot
      have isMoved := ne_of_mem_of_not_mem member movedLeft
      rw [last_node a isMoved isTop, first_node a (leftOutside a member) isMoved]
  · refine inRight.congr fun a member => ?_
    have isMoved := ne_of_mem_of_not_mem member movedNotRight
    have isTop : a ≠ top := fun same => leftRight topMember (same ▸ member)
    rw [last_node a isMoved isTop, first_node a (rightOutside a member) isMoved]

theorem detachMoved_child {movedRed : Bool} {left rest : Shape Addr} {moved : Addr}
    (holds : s.Holds (plug path (.node red left removed (.node movedRed .nil moved rest)))) :
    ∃ s', detachMoved s removed moved = some (s', some moved) ∧
      Detached s' path red left rest removed moved := by
  obtain ⟨outside, inside, -⟩ := Links.holds_plug.1 holds
  obtain ⟨here, inLeft, below, -, inRest⟩ := inside
  have same : ∀ a, (setParentOf s rest.root (some moved)).node a = s.node a := by
    intro a
    rw [setParentOf_node]
    split
    · next root =>
        cases rest with
        | nil => simp [Shape.root] at root
        | node restRed restLeft top restRight =>
          have : top = a := by simpa [Shape.root] using root
          subst this
          rw [inRest.1]
    · rfl
  refine ⟨setParentOf s rest.root (some moved), ?_, ?_⟩
  · simp [detachMoved, below]
  · refine ⟨outside.congr (by simp) fun a _ => same a, ?_, ?_, ?_, ?_,
      inLeft.congr fun a _ => same a, inRest.congr fun a _ => same a⟩
    · rw [same, here]
    · rw [same, here]
    · rw [same, here]
    · rw [same, below]

theorem detachMoved_below {inner : List (Frame Addr)} {movedRed : Bool} {left rest : Shape Addr}
    {moved : Addr} (holds : s.Holds (plug path (.node red left removed
      (plug (frame :: inner) (.node movedRed .nil moved rest))))) :
    ∃ s', detachMoved s removed moved = some (s', some frame.addr) ∧
      Detached s' path red left (plug (frame :: inner) rest) removed moved := by
  have refocused : ∀ t, plug path (.node red left removed (plug (frame :: inner) t)) =
      plug (frame :: inner ++ ⟨.right, red, removed, left⟩ :: path) t := by
    intro t
    rw [plug_append]
    rfl
  have atMoved := holds
  rw [refocused] at atMoved
  have movedLinks := (Links.holds_plug.1 atMoved).2.1.1
  have movedAway := (nodup_plug.1 atMoved.distinct).2.2 moved (by simp [Shape.inorder])
  have movedParent : (s.node moved).parent = some frame.addr := by
    rw [movedLinks]
    rfl
  have movedRight : (s.node moved).right = rest.root := by
    rw [movedLinks]
  have removedParent : frame.addr ≠ removed := by
    have apart := (nodup_plug.1 holds.distinct).1
    have notBelow := ((@Shape.nodup_branch _ .left red _ _ _).1 apart).2.2.2.1
    rintro rfl
    rw [inorder_plug] at notBelow
    have member := (@mem_around_cons _ frame inner frame.addr).2 (.inl rfl)
    rw [around, mem_append] at member
    rcases member with earlier | later
    · simp [earlier] at notBelow
    · simp [later] at notBelow
  -- the tree without `moved`
  have taken := @transplant_holds _ _ s
    (frame :: inner ++ ⟨.right, red, removed, left⟩ :: path) .left movedRed rest moved atMoved
  have movedFresh : moved ∉
      (plug (frame :: inner ++ ⟨.right, red, removed, left⟩ :: path) rest).inorder := by
    have within := (nodup_plug.1 atMoved.distinct).1
    have notRest := ((@Shape.nodup_branch _ .left movedRed _ _ _).1 within).2.2.2.1
    rw [around, mem_append, not_or] at movedAway
    simp only [inorder_plug, mem_append, not_or]
    exact ⟨⟨movedAway.1, notRest⟩, movedAway.2⟩
  rw [← refocused] at taken movedFresh
  obtain ⟨outside, inside, distinct⟩ := Links.holds_plug.1 taken
  obtain ⟨within, -, apart⟩ := nodup_plug.1 distinct
  obtain ⟨-, belowDistinct, removedLeft, removedBelow, leftBelow⟩ :=
    (@Shape.nodup_branch _ .left red _ _ _).1 within
  obtain ⟨here, inLeft, inBelow⟩ := inside
  obtain ⟨top, root⟩ := Shape.exists_root (plug_ne_nil frame inner rest)
  have topMember := Shape.mem_of_root root
  rw [inorder_plug] at movedFresh
  simp only [Shape.inorder, mem_append, mem_cons, not_or] at movedFresh
  obtain ⟨⟨movedBefore, movedLeft, movedRemoved, movedBelow⟩, movedAfter⟩ := movedFresh
  let first := transplant s moved rest.root
  let last := (first.setChild moved .right (some top)).setParent top (some moved)
  have last_node : ∀ a, a ≠ moved → a ≠ top → last.node a = first.node a := by
    intro a isMoved isTop
    rw [Links.setParent_node, if_neg isTop, Links.setChild_node, if_neg isMoved]
  have topMoved : top ≠ moved := ne_of_mem_of_not_mem topMember movedBelow
  have last_removed : last.node removed = first.node removed :=
    last_node removed (Ne.symm movedRemoved) (ne_of_mem_of_not_mem topMember removedBelow).symm
  refine ⟨last, ?_, ?_, ?_, ?_, ?_, ?_, ?_, ?_⟩
  · have rightLinked : (first.node removed).right = some top := by
      rw [here, root]
    have movedLinked : ((first.setChild moved .right (some top)).node moved).right = some top := by
      rw [Links.setChild_node, if_pos rfl]
      rfl
    rw [detachMoved, if_neg (by rw [movedParent]; simpa using removedParent)]
    simp only [movedRight, movedParent, rightLinked, movedLinked, bind_eq_bind,
      bind_some, first, last]
  · refine outside.congr rfl fun a member => ?_
    have isMoved : a ≠ moved := by
      rintro rfl
      rw [around, mem_append] at member
      exact member.elim movedBefore movedAfter
    apply last_node a isMoved
    rintro rfl
    exact apart a (by simp [Shape.inorder, topMember]) member
  · rw [last_removed, here]
  · rw [last_removed, here]
  · rw [last_removed, here]
  · rw [Links.setParent_node, if_neg topMoved.symm, Links.setChild_node, if_pos rfl, root]
    rfl
  · refine inLeft.congr fun a member => ?_
    exact last_node a (ne_of_mem_of_not_mem member movedLeft)
      fun same => leftBelow member (same ▸ topMember)
  · refine inBelow.reparent belowDistinct ?_ ?_
    · intro a isRoot
      have : a = top := by simpa [root] using isRoot.symm
      subst this
      rw [Links.setParent_node, if_pos rfl, Links.setChild_node, if_neg topMoved]
    · intro a member notRoot
      apply last_node a (ne_of_mem_of_not_mem member movedBelow)
      rintro rfl
      exact notRoot root

end Aburi.Adinkra
