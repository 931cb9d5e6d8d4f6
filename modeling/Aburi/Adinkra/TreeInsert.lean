import Aburi.Adinkra.TreeEdits

/-!
# Rebalancing after an insertion

In each round the focus is a red node that may stand below a red parent, and this is
all that keeps the tree from being red-black.
-/

namespace Aburi.Adinkra

open Lib

variable {Addr : Type} [DecidableEq Addr]

/-- What holds before each round: a red focus that is balanced in itself, in a place
where a black one would do. -/
structure InsertState (s : Links Addr) (path : List (Frame Addr)) (t : Shape Addr)
    (n : Nat) : Prop where
  holds : s.Holds (plug path t)
  red : t.isRed = true
  balanced : t.Balanced n
  fits : Fits path n false

/-- A red uncle hands the red colour of the parents on to the grandparent. -/
theorem insertStep_recolour {s : Links Addr} {rest : List (Frame Addr)}
    {side inner : Side} {t sibling uncle : Shape Addr} {node parent grandparent : Addr}
    {n : Nat}
    (state : InsertState s
      (⟨inner, true, parent, sibling⟩ :: ⟨side, false, grandparent, uncle⟩ :: rest) t n)
    (uncleRed : uncle.isRed = true) :
    ∃ s', insertStep side s node parent grandparent = some (s', grandparent) ∧
      InsertState s' rest
        (.branch side true (.branch inner false t parent sibling) grandparent
          (uncle.recolour false)) (n + 1) := by
  obtain ⟨holds, red, balanced, -, siblingBlack, siblingBalanced, uncleBalanced, fits⟩ := state
  obtain ⟨colour, left, addr, right, rfl⟩ :=
    @Shape.exists_branch _ .left uncle (by rintro rfl; simp [Shape.isRed] at uncleRed)
  rw [Shape.isRed_branch] at uncleRed
  subst uncleRed
  have atUncle := holds
  rw [plug_child, plug_child, ← plug_sibling] at atUncle
  have uncleLinked : (s.node grandparent).child side.other = some addr := by
    rw [atUncle.parent_eq, NodeBase.linked_child, Shape.root_branch]
  have first : (s.setRed parent false).Holds
      (plug (⟨side, false, grandparent, .branch .left true left addr right⟩ :: rest)
        (.branch inner false t parent sibling)) :=
    Links.Holds.setRed false holds
  rw [plug_child, ← plug_sibling] at first
  have second := Links.Holds.setRed false first
  rw [plug_sibling] at second
  have third := Links.Holds.setRed true second
  refine ⟨((s.setRed parent false).setRed addr false).setRed grandparent true, ?_, ?_⟩
  · have uncleRed : isRed s (some addr) = true := by
      have colour := isRed_root atUncle
      rwa [Shape.root_branch, Shape.isRed_branch] at colour
    simp [insertStep, uncleLinked, uncleRed]
  · rw [Shape.recolour_branch]
    obtain ⟨-, -, leftBalanced, rightBalanced⟩ := Shape.balanced_red.1 uncleBalanced
    refine ⟨third, Shape.isRed_branch .., Shape.balanced_red.2 ⟨?_, ?_, ?_, ?_⟩, fits⟩
    · rw [Shape.isRed_branch]
    · rw [Shape.isRed_branch]
    · exact Shape.balanced_black.2 ⟨balanced, siblingBalanced⟩
    · exact Shape.balanced_black.2 ⟨leftBalanced, rightBalanced⟩

variable {s : Links Addr} {rest : List (Frame Addr)} {t sibling uncle : Shape Addr}
  {parent grandparent : Addr}

/-- The last rotation, when node and parent are children on the same side. -/
theorem insert_rotate_grandparent {side : Side} {n : Nat} (state : InsertState s
      (⟨side, true, parent, sibling⟩ :: ⟨side, false, grandparent, uncle⟩ :: rest) t n)
    (uncleBlack : uncle.isRed = false) :
    ∃ s', rotate side.other ((s.setRed parent false).setRed grandparent true) grandparent =
        some s' ∧
      InsertState s'
        (⟨side, false, parent, .branch side true sibling grandparent uncle⟩ :: rest) t n := by
  obtain ⟨holds, red, balanced, -, siblingBlack, siblingBalanced, uncleBalanced, fits⟩ := state
  have first : (s.setRed parent false).Holds
      (plug (⟨side, false, grandparent, uncle⟩ :: rest) (.branch side false t parent sibling)) :=
    Links.Holds.setRed false holds
  have second : ((s.setRed parent false).setRed grandparent true).Holds
      (plug rest (.branch side true (.branch side false t parent sibling) grandparent uncle)) :=
    Links.Holds.setRed true first
  rw [← Shape.branch_other side true, ← Shape.branch_other side false] at second
  obtain ⟨s', rotated, third⟩ := rotate_holds second
  rw [Shape.branch_other side true, Shape.branch_other side false] at third
  refine ⟨s', rotated, third, red, balanced, ?_, fits⟩
  exact Shape.balanced_red.2 ⟨siblingBlack, uncleBlack, siblingBalanced, uncleBalanced⟩

variable {node : Addr}

theorem insertStep_straight {side : Side} {n : Nat} (state : InsertState s
      (⟨side, true, parent, sibling⟩ :: ⟨side, false, grandparent, uncle⟩ :: rest) t n)
    (root : t.root = some node) (uncleBlack : uncle.isRed = false) :
    ∃ s', insertStep side s node parent grandparent = some (s', node) ∧
      InsertState s'
        (⟨side, false, parent, .branch side true sibling grandparent uncle⟩ :: rest) t n := by
  obtain ⟨s', rotated, after⟩ := insert_rotate_grandparent state uncleBlack
  refine ⟨s', ?_, after⟩
  obtain ⟨holds, red, balanced, -, siblingBlack, -, -, -⟩ := state
  have atUncle := holds
  rw [plug_child, plug_child, ← plug_sibling] at atUncle
  have uncleLinked : (s.node grandparent).child side.other = uncle.root := by
    rw [atUncle.parent_eq, NodeBase.linked_child]
  have atSibling := holds
  rw [plug_child, ← plug_sibling] at atSibling
  have siblingLinked : (s.node parent).child side.other = sibling.root := by
    rw [atSibling.parent_eq, NodeBase.linked_child]
  have different : some node ≠ sibling.root := by
    intro same
    have nodeRed := isRed_root holds
    rw [root, same, isRed_root atSibling, siblingBlack, red] at nodeRed
    exact absurd nodeRed (by simp)
  have uncleColour := isRed_root atUncle
  rw [uncleBlack] at uncleColour
  simp [insertStep, uncleLinked, uncleColour, siblingLinked, different, rotated]

/-- When node and parent are children on different sides, the node is rotated up
first, and its former parent is the node of the next round. -/
theorem insertStep_bent {side : Side} {near far : Shape Addr} {n : Nat} (state : InsertState s
      (⟨side.other, true, parent, sibling⟩ :: ⟨side, false, grandparent, uncle⟩ :: rest)
      (.branch side true near node far) n) (uncleBlack : uncle.isRed = false) :
    ∃ s', insertStep side s node parent grandparent = some (s', parent) ∧
      InsertState s'
        (⟨side, false, node, .branch side true far grandparent uncle⟩ :: rest)
        (.branch side true sibling parent near) n := by
  obtain ⟨holds, red, balanced, -, siblingBlack, siblingBalanced, uncleBalanced, fits⟩ := state
  obtain ⟨nearBlack, farBlack, nearBalanced, farBalanced⟩ := Shape.balanced_red.1 balanced
  have atUncle := holds
  rw [plug_child, plug_child, ← plug_sibling] at atUncle
  have uncleLinked : (s.node grandparent).child side.other = uncle.root := by
    rw [atUncle.parent_eq, NodeBase.linked_child]
  have uncleColour := isRed_root atUncle
  rw [uncleBlack] at uncleColour
  have nodeLinked : (s.node parent).child side.other = some node := by
    rw [holds.parent_eq, NodeBase.linked_child, Shape.root_branch]
  have turned := holds
  rw [plug_child, Shape.branch_other] at turned
  obtain ⟨s₁, rotated, after⟩ := rotate_holds turned
  have parentLinks : (s₁.node parent).parent = some node := by
    have atParent : s₁.Holds (plug (⟨side, true, node, far⟩ ::
        ⟨side, false, grandparent, uncle⟩ :: rest) (.branch side true sibling parent near)) :=
      after
    rw [atParent.node_eq, NodeBase.linked_parent, parentOf_cons]
  have nodeLinks : (s₁.node node).parent = some grandparent := by
    rw [after.node_eq, NodeBase.linked_parent, parentOf_cons]
  have straight : InsertState s₁ (⟨side, true, node, far⟩ ::
      ⟨side, false, grandparent, uncle⟩ :: rest) (.branch side true sibling parent near) n :=
    ⟨after, Shape.isRed_branch ..,
      Shape.balanced_red.2 ⟨siblingBlack, nearBlack, siblingBalanced, nearBalanced⟩,
      rfl, farBlack, farBalanced, uncleBalanced, fits⟩
  obtain ⟨s', rotatedAgain, last⟩ := insert_rotate_grandparent straight uncleBlack
  refine ⟨s', ?_, last⟩
  simp [insertStep, uncleLinked, uncleColour, nodeLinked, rotated, parentLinks, nodeLinks,
    rotatedAgain]

theorem insertStep_state {side inner : Side} {n : Nat} (state : InsertState s
      (⟨inner, true, parent, sibling⟩ :: ⟨side, false, grandparent, uncle⟩ :: rest) t n)
    (root : t.root = some node) :
    ∃ s' node' path' t' n', insertStep side s node parent grandparent = some (s', node') ∧
      InsertState s' path' t' n' ∧ t'.root = some node' ∧
      (plug path' t').inorder = (plug rest (.branch side false
        (.branch inner true t parent sibling) grandparent uncle)).inorder ∧
      (path' = rest ∨ ∃ addr beside, path' = ⟨side, false, addr, beside⟩ :: rest) := by
  cases uncleColour : uncle.isRed with
  | true =>
    obtain ⟨s', result, after⟩ := @insertStep_recolour _ _ _ _ _ _ _ _ _ node _ _ _
      state uncleColour
    refine ⟨s', grandparent, rest, _, n + 1, result, after, Shape.root_branch .., ?_, .inl rfl⟩
    rw [inorder_plug, inorder_plug]
    cases side <;> cases inner <;> simp [Shape.branch, Shape.inorder]
  | false =>
    by_cases same : inner = side
    · subst same
      obtain ⟨s', result, after⟩ := insertStep_straight state root uncleColour
      refine ⟨s', node, _, t, n, result, after, root, ?_, .inr ⟨_, _, rfl⟩⟩
      rw [plug_child, inorder_plug, inorder_plug]
      cases inner <;> simp [Shape.branch, Shape.inorder]
    · have opposite : inner = side.other := by
        cases side <;> cases inner <;> simp_all [Side.other]
      subst opposite
      obtain ⟨red, near, addr, far, rfl⟩ :=
        @Shape.exists_branch _ side t (by rintro rfl; simp [Shape.root] at root)
      have isNode : addr = node := by simpa using root
      have isRed : red = true := by simpa using state.red
      subst isNode isRed
      obtain ⟨s', result, after⟩ := insertStep_bent state uncleColour
      refine ⟨s', parent, _, _, n, result, after, Shape.root_branch .., ?_, .inr ⟨_, _, rfl⟩⟩
      rw [plug_child, inorder_plug, inorder_plug]
      cases side <;> simp [Shape.branch, Shape.inorder, Side.other]

theorem insertLoop_exit {s : Links Addr} {path : List (Frame Addr)} {t : Shape Addr}
    {n fuel : Nat} {node : Addr} (state : InsertState s path t n)
    (root : t.root = some node) (settled : ∀ frame, path.head? = some frame → frame.red = false) :
    insertLoop (fuel + 1) s node = some s ∧ ((plug path t).recolour false).RedBlack := by
  obtain ⟨holds, red, balanced, fits⟩ := state
  cases path with
  | nil =>
    refine ⟨?_, ?_⟩
    · rw [insertLoop, if_neg]
      exact fun test => test.1 (root.symm.trans holds.root_nil.symm)
    · refine ⟨?_, n + 1, balanced.blacken red⟩
      cases t <;> rfl
  | cons frame rest =>
    obtain ⟨side, colour, addr, sibling⟩ := frame
    have black : colour = false := settled _ rfl
    subst black
    have whole : (plug (⟨side, false, addr, sibling⟩ :: rest) t).RedBlack :=
      Fits.redBlack (fits.red t.isRed) balanced
    refine ⟨?_, ?_⟩
    · have parentColour : isRed s (s.node node).parent = false := by
        obtain ⟨red', near, node', far, rfl⟩ :=
          @Shape.exists_branch _ .left t (by rintro rfl; simp [Shape.root] at root)
        have isNode : node' = node := by simpa using root
        subst isNode
        rw [holds.node_eq, NodeBase.linked_parent, parentOf_cons, isRed, holds.parent_eq,
          NodeBase.linked_red]
      rw [insertLoop, if_neg]
      simp [parentColour]
    · rwa [Shape.recolour_false whole.rootBlack]

theorem insertLoop_holds {fuel : Nat} {path : List (Frame Addr)} {n : Nat}
    (state : InsertState s path t n) (root : t.root = some node) (enough : path.length < fuel) :
    ∃ s' whole, insertLoop fuel s node = some s' ∧ s'.Holds whole ∧
      (whole.recolour false).RedBlack ∧ whole.inorder = (plug path t).inorder := by
  induction fuel generalizing s path t n node with
  | zero => omega
  | succ fuel ih =>
    by_cases settled : ∀ frame, path.head? = some frame → frame.red = false
    · obtain ⟨result, redBlack⟩ := @insertLoop_exit _ _ _ _ _ _ fuel _ state root settled
      exact ⟨s, plug path t, result, state.holds, redBlack, rfl⟩
    · obtain ⟨frame, rest, rfl, colour⟩ :
          ∃ frame rest, path = frame :: rest ∧ frame.red = true := by
        cases path with
        | nil => simp at settled
        | cons frame rest => exact ⟨frame, rest, rfl, by simpa using settled⟩
      obtain ⟨inner, red, parent, sibling⟩ := frame
      simp only at colour
      subst colour
      -- a red parent is not the root, and its own parent is black
      obtain ⟨side, grandparent, uncle, above, rfl⟩ :
          ∃ side grandparent uncle above, rest = ⟨side, false, grandparent, uncle⟩ :: above := by
        have fits := state.fits.2.2.2
        cases rest with
        | nil => exact absurd fits (by simp [Fits])
        | cons frame above =>
          obtain ⟨side, red, grandparent, uncle⟩ := frame
          cases red with
          | true => exact absurd fits.1 (by simp)
          | false => exact ⟨side, grandparent, uncle, above, rfl⟩
      obtain ⟨s₁, node₁, path₁, t₁, n₁, stepped, after, root₁, order, shorter⟩ :=
        insertStep_state state root
      have unfolded : insertLoop (fuel + 1) s node = insertLoop fuel s₁ node₁ := by
        obtain ⟨red, near, node', far, rfl⟩ :=
          @Shape.exists_branch _ .left t (by rintro rfl; simp [Shape.root] at root)
        have isNode : node' = node := by simpa using root
        subst isNode
        have notRoot := state.holds.root_ne
        rw [Shape.root_branch] at notRoot
        have parentLinked : (s.node node').parent = some parent := by
          rw [state.holds.node_eq, NodeBase.linked_parent, parentOf_cons]
        have parentLinks := state.holds.parent_eq
        have atParent := state.holds
        rw [plug_child] at atParent
        have sided := eq_left_iff atParent (Shape.root_branch ..)
        simp only at parentLinks sided
        have parentRed : isRed s (some parent) = true := by
          rw [isRed, parentLinks, NodeBase.linked_red]
        have grandparentLinked : (s.node parent).parent = some grandparent := by
          rw [parentLinks, NodeBase.linked_parent, parentOf_cons]
        rw [insertLoop, if_pos ⟨notRoot, by rw [parentLinked, parentRed]⟩, parentLinked]
        simp only [grandparentLinked, Option.bind_eq_bind, Option.bind_some, sided]
        cases side with
        | left | right => simp [stepped]
      rw [unfolded]
      rcases shorter with rfl | ⟨addr, beside, rfl⟩
      · obtain ⟨s', whole, result, holds, redBlack, sameOrder⟩ :=
          ih after root₁ (by simp at enough; omega)
        exact ⟨s', whole, result, holds, redBlack, sameOrder.trans order⟩
      · obtain _ | fuel := fuel
        · simp at enough
        obtain ⟨result, redBlack⟩ := @insertLoop_exit _ _ _ _ _ _ fuel _ after root₁ (by simp)
        exact ⟨s₁, _, result, after.holds, redBlack, order⟩

/-- The place of the focus, as the callers of `insert_rebalance` name it. -/
def placeOf (path : List (Frame Addr)) : Option (Addr × Side) :=
  path.head?.map fun frame => (frame.addr, frame.side)

theorem attach_holds {path : List (Frame Addr)} (holds : s.Holds (plug path .nil))
    (fresh : node ∉ (plug path .nil).inorder) :
    ((((attach s (placeOf path) node).setChild node .left none).setChild node .right
      none).setRed node true).Holds (plug path (.node true .nil node .nil)) := by
  obtain ⟨outside, -, distinct⟩ := Links.holds_plug.1 holds
  obtain ⟨-, surroundings, -⟩ := nodup_plug.1 distinct
  have away : node ∉ around path := by
    simpa [inorder_plug, around, Shape.inorder] using fresh
  have attached : (attach s (placeOf path) node).Surrounds path (some node) ∧
      ((attach s (placeOf path) node).node node).parent = parentOf path := by
    cases path with
    | nil => simp [attach, placeOf, Links.Surrounds, Links.setParent_node]
    | cons frame rest =>
      obtain ⟨here, beside, above⟩ := outside
      obtain ⟨notBeside, notAbove, -, -⟩ := nodup_around_cons surroundings
      have apart : ∀ a ∈ around (frame :: rest), a ≠ node := fun a member =>
        ne_of_mem_of_not_mem member away
      have frameNode := apart frame.addr (mem_around_cons.2 (.inl rfl))
      have other : ∀ a, a ≠ node → a ≠ frame.addr →
          (attach s (placeOf (frame :: rest)) node).node a = s.node a := by
        intro a isNode isFrame
        simp [attach, placeOf, Links.setChild_node, Links.setParent_node, isNode, isFrame]
      refine ⟨⟨?_, beside.congr ?_, above.congr rfl ?_⟩, ?_⟩
      · simp [attach, placeOf, Links.setChild_node, Links.setParent_node, frameNode, here]
      · exact fun a member => other a (apart a (mem_around_cons.2 (.inr (.inl member))))
          (ne_of_mem_of_not_mem member notBeside)
      · exact fun a member => other a (apart a (mem_around_cons.2 (.inr (.inr member))))
          (ne_of_mem_of_not_mem member notAbove)
      · simp [attach, placeOf, Links.setChild_node, Links.setParent_node, frameNode.symm]
  refine Links.holds_plug.2 ⟨attached.1.congr rfl ?_, ⟨?_, trivial, trivial⟩, ?_⟩
  · intro a member
    have isNode := ne_of_mem_of_not_mem member away
    rw [Links.setRed_node, if_neg isNode, Links.setChild_node, if_neg isNode,
      Links.setChild_node, if_neg isNode]
  · rw [Links.setRed_node, if_pos rfl, Links.setChild_node, if_pos rfl, Links.setChild_node,
      if_pos rfl, ← attached.2]
    rfl
  · refine nodup_plug.2 ⟨by simp [Shape.inorder], surroundings, ?_⟩
    simpa [Shape.inorder] using away

theorem insertRebalance_holds {s : Links Addr} {path : List (Frame Addr)} {node : Addr}
    {fuel : Nat} (holds : s.Holds (plug path .nil)) (redBlack : (plug path .nil).RedBlack)
    (fresh : node ∉ (plug path .nil).inorder) (enough : path.length < fuel) :
    ∃ s' t', insertRebalance fuel (attach s (placeOf path) node) node = some s' ∧
      s'.Holds t' ∧ t'.RedBlack ∧ t'.inorder = before path ++ node :: after path := by
  obtain ⟨n, fits, balanced⟩ := redBlack.fits
  have state : InsertState _ path (.node true .nil node .nil) n :=
    ⟨attach_holds holds fresh, rfl, ⟨rfl, rfl, balanced, balanced⟩, fits⟩
  obtain ⟨s₁, whole, result, after, almost, order⟩ := insertLoop_holds state rfl enough
  have order' : whole.inorder = before path ++ node :: Lib.after path := by
    rw [order, inorder_plug]
    simp [Shape.inorder]
  obtain ⟨red, left, top, right, rfl⟩ := @Shape.exists_branch _ .left whole (by
    rintro rfl
    simp [Shape.inorder] at order')
  have rooted : s₁.root = some top := by
    rw [after.rooted, Shape.root_branch]
  refine ⟨s₁.setRed top false, .branch .left false left top right, ?_, ?_, ?_, ?_⟩
  · simp [insertRebalance, result, rooted]
  · exact @Links.Holds.setRed _ _ s₁ [] _ _ _ _ _ false after
  · rwa [Shape.recolour_branch] at almost
  · rw [← order', Shape.inorder_recolour]

end Aburi.Adinkra
