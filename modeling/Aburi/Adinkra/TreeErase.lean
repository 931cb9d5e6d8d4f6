import Aburi.Adinkra.TreeWalk

/-!
# Rebalancing after a removal

In each round one black node is missing on every way down through the focus, and this
is all that keeps the tree from being red-black.
-/

namespace Aburi.Adinkra

open Lib List Option

variable {Addr : Type} [DecidableEq Addr]

theorem setRedOf_holds {s : Links Addr} {path : List (Frame Addr)} {t : Shape Addr}
    (colour : Bool) (holds : s.Holds (plug path t)) :
    (setRedOf s t.root colour).Holds (plug path (t.recolour colour)) := by
  cases t with
  | nil => exact holds
  | node red left addr right =>
    exact @Links.Holds.setRed _ _ _ _ .left red left right addr colour holds

/-- What holds before each round: the focus lacks one black node, which it gets at
once if its root is red. -/
structure EraseState (s : Links Addr) (path : List (Frame Addr)) (t : Shape Addr)
    (n : Nat) : Prop where
  holds : s.Holds (plug path t)
  red : t.isRed = true → (t.recolour false).Balanced (n + 1)
  black : t.isRed = false → t.Balanced n
  fits : Fits path (n + 1) false

variable {s : Links Addr} {rest : List (Frame Addr)} {side : Side} {red : Bool} {t : Shape Addr}
  {parent : Addr}

theorem raiseRedSibling_black {sibling : Shape Addr}
    (holds : s.Holds (plug (⟨side, red, parent, sibling⟩ :: rest) t))
    (siblingBlack : sibling.isRed = false) :
    raiseRedSibling side s parent = some (s, sibling.root) := by
  have atSibling := holds
  rw [plug_child, ← plug_sibling] at atSibling
  have linked : (s.node parent).child side.other = sibling.root := by
    rw [atSibling.parent_eq, NodeBase.linked_child]
  have colour := isRed_root atSibling
  rw [siblingBlack] at colour
  simp [raiseRedSibling, linked, colour]

variable {near far : Shape Addr} {sibling : Addr} {n : Nat}

theorem raiseRedSibling_red
    (state : EraseState s (⟨side, red, parent, .branch side true near sibling far⟩ :: rest) t n) :
    ∃ s', raiseRedSibling side s parent = some (s', near.root) ∧ near.isRed = false ∧
      EraseState s' (⟨side, true, parent, near⟩ :: ⟨side, false, sibling, far⟩ :: rest) t n := by
  obtain ⟨holds, lackRed, lackBlack, fits⟩ := state
  have parentBlack : red = false := by
    cases red with
    | false => rfl
    | true => exact absurd fits.2.1 (by simp)
  subst parentBlack
  obtain ⟨siblingBalanced, above⟩ := fits
  obtain ⟨nearBlack, farBlack, nearBalanced, farBalanced⟩ := Shape.balanced_red.1 siblingBalanced
  have atSibling := holds
  rw [plug_child, ← plug_sibling] at atSibling
  have linked : (s.node parent).child side.other = some sibling := by
    rw [atSibling.parent_eq, NodeBase.linked_child, Shape.root_branch]
  have colour := isRed_root atSibling
  rw [Shape.root_branch, Shape.isRed_branch] at colour
  have first := Links.Holds.setRed false atSibling
  rw [plug_sibling] at first
  have second := Links.Holds.setRed true first
  obtain ⟨s', rotated, third⟩ := rotate_holds second
  have atNear := third
  rw [← plug_child, ← plug_sibling] at atNear
  have nearLinked : (s'.node parent).child side.other = near.root := by
    rw [atNear.parent_eq, NodeBase.linked_child]
  refine ⟨s', ?_, nearBlack, third, lackRed, lackBlack, rfl, nearBlack, nearBalanced,
    farBalanced, above⟩
  simp [raiseRedSibling, linked, colour, rotated, nearLinked]

/-- After the first part of a round the sibling is black; if it was red before, then
the parent is red now. -/
theorem raiseRedSibling_state {sibling : Shape Addr}
    (state : EraseState s (⟨side, red, parent, sibling⟩ :: rest) t n) :
    ∃ s' red' sibling' rest', raiseRedSibling side s parent = some (s', sibling'.root) ∧
      sibling'.isRed = false ∧
      EraseState s' (⟨side, red', parent, sibling'⟩ :: rest') t n ∧
      (plug rest' (.branch side red' t parent sibling')).inorder =
        (plug rest (.branch side red t parent sibling)).inorder ∧
      (rest' = rest ∨ red' = true) := by
  cases colour : sibling.isRed with
  | false =>
    exact ⟨s, red, sibling, rest, raiseRedSibling_black state.holds colour, colour, state,
      rfl, .inl rfl⟩
  | true =>
    obtain ⟨siblingRed, near, addr, far, rfl⟩ :=
      @Shape.exists_branch _ side sibling (by rintro rfl; simp [Shape.isRed] at colour)
    rw [Shape.isRed_branch] at colour
    subst colour
    obtain ⟨s', result, black, after⟩ := raiseRedSibling_red state
    refine ⟨s', true, near, _, result, black, after, ?_, .inr rfl⟩
    rw [plug_child, inorder_plug, inorder_plug]
    cases side <;> simp [Shape.branch, Shape.inorder]

/-- The near child of a black sibling, red while the far one is black, is rotated up
and its parent becomes the red far child. -/
theorem raiseNearChild_state (holds : s.Holds
      (plug (⟨side, red, parent, .branch side false near sibling far⟩ :: rest) t))
    (nearBalanced : near.Balanced n) (farBalanced : far.Balanced n)
    (someRed : near.isRed = true ∨ far.isRed = true) :
    ∃ s' near' sibling' far', raiseNearChild side s parent sibling = some (s', some sibling') ∧
      s'.Holds (plug (⟨side, red, parent, .branch side false near' sibling' far'⟩ :: rest) t) ∧
      near'.Balanced n ∧ (far'.recolour false).Balanced (n + 1) ∧
      (Shape.branch side false near' sibling' far').inorder =
        (Shape.branch side false near sibling far).inorder := by
  have atSibling := holds
  rw [plug_child, ← plug_sibling] at atSibling
  have atFar := atSibling
  rw [← plug_sibling] at atFar
  have farLinked : (s.node sibling).child side.other = far.root := by
    rw [atFar.parent_eq, NodeBase.linked_child]
  have farColour := isBlack_root atFar
  cases colour : far.isRed with
  | true =>
    refine ⟨s, near, sibling, far, ?_, holds, nearBalanced, farBalanced.blacken colour, rfl⟩
    simp [raiseNearChild, farLinked, farColour, colour]
  | false =>
    have nearRed : near.isRed = true := by simpa [colour] using someRed
    obtain ⟨nearColour, outer, addr, inner, rfl⟩ :=
      @Shape.exists_branch _ side near (by rintro rfl; simp [Shape.isRed] at nearRed)
    rw [Shape.isRed_branch] at nearRed
    subst nearRed
    obtain ⟨outerBlack, innerBlack, outerBalanced, innerBalanced⟩ :=
      Shape.balanced_red.1 nearBalanced
    have atNear := atSibling
    rw [← plug_child] at atNear
    have nearLinked : (s.node sibling).child side = some addr := by
      rw [atNear.parent_eq, NodeBase.linked_child, Shape.root_branch]
    have first := Links.Holds.setRed false atNear
    rw [plug_child] at first
    have second := Links.Holds.setRed true first
    rw [← Shape.branch_other side true, ← Shape.branch_other side false outer] at second
    obtain ⟨s', rotated, third⟩ := rotate_holds second
    rw [Shape.branch_other side true, Shape.branch_other side false] at third
    have linked : (s'.node parent).child side.other = some addr := by
      rw [third.parent_eq, NodeBase.linked_child, Shape.root_branch]
    rw [plug_sibling] at third
    refine ⟨s', outer, addr, .branch side true inner sibling far, ?_, third, outerBalanced, ?_, ?_⟩
    · simp [raiseNearChild, farLinked, farColour, colour, nearLinked, setRedOf, rotated, linked]
    · rw [Shape.recolour_branch]
      exact Shape.balanced_black.2 ⟨innerBalanced, farBalanced⟩
    · cases side <;> simp [Shape.branch, Shape.inorder]

/-- The last rotation of a round brings the missing black node to the focus. -/
theorem erase_rotate_parent {beside : Shape Addr} (holds : s.Holds
      (plug (⟨side, red, parent, .branch side false near sibling far⟩ :: rest) t))
    (balanced : t.Balanced n) (nearBalanced : near.Balanced n)
    (farBalanced : (far.recolour false).Balanced (n + 1))
    (fits : Fits (⟨side, red, parent, beside⟩ :: rest) (n + 1) false) :
    (((s.setRed sibling red).setRed parent false).node sibling).child side.other = far.root ∧
    ∃ s', rotate side (setRedOf ((s.setRed sibling red).setRed parent false) far.root false)
        parent = some s' ∧
      s'.Holds (plug rest (.branch side red (.branch side false t parent near) sibling
        (far.recolour false))) ∧
      (plug rest (.branch side red (.branch side false t parent near) sibling
        (far.recolour false))).RedBlack := by
  rw [plug_child, ← plug_sibling] at holds
  have first := Links.Holds.setRed red holds
  rw [plug_sibling] at first
  have second := Links.Holds.setRed false first
  rw [← plug_sibling, ← plug_sibling] at second
  have third := setRedOf_holds false second
  rw [plug_sibling, plug_sibling] at third
  obtain ⟨s', rotated, last⟩ := rotate_holds third
  refine ⟨by rw [second.parent_eq, NodeBase.linked_child], s', rotated, last, ?_⟩
  have left : (Shape.branch side false t parent near).Balanced (n + 1) :=
    Shape.balanced_black.2 ⟨balanced, nearBalanced⟩
  cases red with
  | true =>
    refine @Fits.redBlack _ _ _ (n + 1) ?_ ?_
    · rw [Shape.isRed_branch]
      exact fits.2.2.2
    · refine Shape.balanced_red.2 ⟨Shape.isRed_branch .., ?_, left, farBalanced⟩
      cases far <;> rfl
  | false =>
    refine @Fits.redBlack _ _ _ (n + 2) ?_ ?_
    · rw [Shape.isRed_branch]
      exact fits.2
    · exact Shape.balanced_black.2 ⟨left, farBalanced⟩

/-- When both children of the black sibling are black, it is painted red, and the
parent lacks a black node instead. -/
theorem erase_recolour (state : EraseState s
      (⟨side, red, parent, .branch side false near sibling far⟩ :: rest) t n)
    (black : t.isRed = false) (nearBlack : near.isRed = false) (farBlack : far.isRed = false) :
    ∃ n', EraseState (s.setRed sibling true) rest
      (.branch side red t parent (.branch side true near sibling far)) n' := by
  obtain ⟨holds, -, lackBlack, fits⟩ := state
  have balanced := lackBlack black
  rw [plug_child, ← plug_sibling] at holds
  have painted := Links.Holds.setRed true holds
  rw [plug_sibling] at painted
  cases red with
  | true =>
    obtain ⟨-, -, siblingBalanced, above⟩ := fits
    obtain ⟨nearBalanced, farBalanced⟩ := Shape.balanced_black.1 siblingBalanced
    refine ⟨n, painted, ?_, ?_, above.black⟩
    · intro _
      rw [Shape.recolour_branch]
      exact Shape.balanced_black.2
        ⟨balanced, Shape.balanced_red.2 ⟨nearBlack, farBlack, nearBalanced, farBalanced⟩⟩
    · simp
  | false =>
    obtain ⟨siblingBalanced, above⟩ := fits
    obtain ⟨nearBalanced, farBalanced⟩ := Shape.balanced_black.1 siblingBalanced
    refine ⟨n + 1, painted, ?_, ?_, above⟩
    · simp
    · intro _
      exact Shape.balanced_black.2
        ⟨balanced, Shape.balanced_red.2 ⟨nearBlack, farBlack, nearBalanced, farBalanced⟩⟩

/-- One round: either the tree is red-black after it, or the parent of the focus is
the focus of the next one. -/
theorem eraseStep_state {sibling : Shape Addr}
    (state : EraseState s (⟨side, red, parent, sibling⟩ :: rest) t n) (black : t.isRed = false) :
    (∃ s' whole, eraseStep side s parent = some (s', s'.root, none) ∧ s'.Holds whole ∧
      whole.RedBlack ∧
      whole.inorder = (plug rest (.branch side red t parent sibling)).inorder) ∨
    (∃ s' path' t' n', eraseStep side s parent = some (s', t'.root, parentOf path') ∧
      EraseState s' path' t' n' ∧ (path' = rest ∨ t'.isRed = true) ∧
      (plug path' t').inorder = (plug rest (.branch side red t parent sibling)).inorder) := by
  obtain ⟨s₁, red₁, sibling₁, rest₁, raised, siblingBlack, state₁, order, shorter⟩ :=
    raiseRedSibling_state state
  have siblingBalanced : sibling₁.Balanced (n + 1) := by
    have fits := state₁.fits
    cases red₁ with
    | true => exact fits.2.2.1
    | false => exact fits.1
  obtain ⟨colour, near, addr, far, rfl⟩ := Shape.exists_branch side siblingBalanced.ne_nil
  rw [Shape.isRed_branch] at siblingBlack
  subst siblingBlack
  obtain ⟨nearBalanced, farBalanced⟩ := Shape.balanced_black.1 siblingBalanced
  have atSibling := state₁.holds
  rw [plug_child, ← plug_sibling] at atSibling
  have childrenBlack : (isBlack s₁ (s₁.node addr).left && isBlack s₁ (s₁.node addr).right) =
      (!near.isRed && !far.isRed) := by
    have atNear := atSibling
    rw [← plug_child] at atNear
    have atFar := atSibling
    rw [← plug_sibling] at atFar
    rw [atSibling.node_eq, ← isBlack_root atNear, ← isBlack_root atFar]
    cases side with
    | left => rfl
    | right => exact Bool.and_comm _ _
  rw [Shape.root_branch] at raised
  by_cases bothBlack : near.isRed = false ∧ far.isRed = false
  · obtain ⟨nearBlack, farBlack⟩ := bothBlack
    obtain ⟨n', after⟩ := erase_recolour state₁ black nearBlack farBlack
    refine .inr ⟨_, rest₁, _, n', ?_, after, ?_, ?_⟩
    · have parentLinks := after.holds.node_eq
      simp only [eraseStep, raised, bind_eq_bind, bind_some, childrenBlack,
        nearBlack, farBlack]
      simp [parentLinks]
    · rcases shorter with same | isRed
      · exact .inl same
      · exact .inr (by rw [Shape.isRed_branch, isRed])
    · rw [← order, inorder_plug, inorder_plug]
      cases side <;> simp [Shape.branch, Shape.inorder]
  · have someRed : near.isRed = true ∨ far.isRed = true := by
      cases hnear : near.isRed <;> cases hfar : far.isRed <;> simp_all
    obtain ⟨s₂, near₂, sibling₂, far₂, raisedNear, holds₂, near₂Balanced, far₂Balanced,
      order₂⟩ := raiseNearChild_state state₁.holds nearBalanced farBalanced someRed
    obtain ⟨farLinked, s', rotated, holds', redBlack⟩ :=
      erase_rotate_parent holds₂ (state₁.black black) near₂Balanced far₂Balanced state₁.fits
    refine .inl ⟨s', _, ?_, holds', redBlack, ?_⟩
    · have test : (!near.isRed && !far.isRed) = false := by
        cases hnear : near.isRed <;> cases hfar : far.isRed <;> simp_all
      have parentRed : (s₂.node parent).red = red₁ := by
        rw [holds₂.parent_eq, NodeBase.linked_red]
      simp only [eraseStep, raised, bind_eq_bind, bind_some, childrenBlack,
        test, raisedNear, parentRed, farLinked, rotated]
      simp
    · rw [← order, inorder_plug, inorder_plug]
      congr 2
      cases side with
      | left =>
        have extended := congrArg (t.inorder ++ parent :: ·) order₂
        simpa [Shape.branch, Shape.inorder] using extended
      | right =>
        have extended := congrArg (· ++ parent :: t.inorder) order₂
        simpa [Shape.branch, Shape.inorder] using extended

theorem eraseFix_exit {node : Option Addr} (fuel : Nat) (parent : Option Addr)
    (test : ¬(node ≠ s.root ∧ isBlack s node = true)) :
    eraseFix (fuel + 1) s node parent = some (setRedOf s node false) := by
  cases parent with
  | none | some above => rw [eraseFix, if_neg test]

variable {path : List (Frame Addr)} {fuel : Nat}

theorem eraseFix_exit_red (parent : Option Addr) (state : EraseState s path t n)
    (red : t.isRed = true) :
    ∃ s' whole, eraseFix (fuel + 1) s t.root parent = some s' ∧ s'.Holds whole ∧
      whole.RedBlack ∧ whole.inorder = (plug path t).inorder := by
  refine ⟨setRedOf s t.root false, plug path (t.recolour false), ?_,
    setRedOf_holds false state.holds, ?_, ?_⟩
  · have colour := isBlack_root state.holds
    exact eraseFix_exit fuel parent (by simp [colour, red])
  · have black : (t.recolour false).isRed = false := by
      cases t <;> rfl
    exact Fits.redBlack (by rw [black]; exact state.fits) (state.red red)
  · rw [inorder_plug, inorder_plug, Shape.inorder_recoloured]

/-- At the root of a red-black tree the loop ends and changes nothing. -/
theorem eraseFix_exit_root (fuel : Nat) (parent : Option Addr) (holds : s.Holds t)
    (redBlack : t.RedBlack) :
    ∃ s', eraseFix (fuel + 1) s s.root parent = some s' ∧ s'.Holds t := by
  refine ⟨setRedOf s s.root false, ?_, ?_⟩
  · exact eraseFix_exit fuel parent fun test => test.1 rfl
  · have painted := @setRedOf_holds _ _ s [] t false holds
    rw [Shape.recolour_false redBlack.rootBlack] at painted
    rw [holds.rooted]
    exact painted

theorem eraseFix_holds (state : EraseState s path t n) (positive : 0 < fuel)
    (enough : t.isRed = false → path.length < fuel) :
    ∃ s' whole, eraseFix fuel s t.root (parentOf path) = some s' ∧ s'.Holds whole ∧
      whole.RedBlack ∧ whole.inorder = (plug path t).inorder := by
  induction fuel generalizing s path t n with
  | zero => omega
  | succ fuel ih =>
    cases colour : t.isRed with
    | true => exact eraseFix_exit_red _ state colour
    | false =>
      have counted := enough colour
      cases path with
      | nil =>
        have redBlack : t.RedBlack := ⟨colour, n, state.black colour⟩
        obtain ⟨s', result, holds⟩ := eraseFix_exit_root fuel (parentOf []) state.holds redBlack
        rw [state.holds.root_nil] at result
        exact ⟨s', t, result, holds, redBlack, rfl⟩
      | cons frame rest =>
        obtain ⟨side, red, parent, sibling⟩ := frame
        simp only [length_cons] at counted
        have siblingBalanced : sibling.Balanced (n + 1) := by
          have fits := state.fits
          cases red with
          | true => exact fits.2.2.1
          | false => exact fits.1
        have sided := root_eq_left_iff state.holds siblingBalanced.ne_nil
        have unfolded : eraseFix (fuel + 1) s t.root (some parent) =
            (eraseStep side s parent).bind fun result =>
              eraseFix fuel result.1 result.2.1 result.2.2 := by
          have test : t.root ≠ s.root ∧ isBlack s t.root = true :=
            ⟨state.holds.root_ne, by rw [isBlack_root state.holds, colour]; rfl⟩
          rw [eraseFix, if_pos test]
          cases side with
          | left | right => simp [sided]
        rw [parentOf_cons, unfolded]
        rcases eraseStep_state state colour with
          ⟨s₁, whole, stepped, holds, redBlack, order⟩ |
          ⟨s₁, path₁, t₁, n₁, stepped, after, shorter, order⟩
        · obtain _ | fuel := fuel
          · omega
          obtain ⟨s', result, held⟩ := eraseFix_exit_root fuel none holds redBlack
          exact ⟨s', whole, by rw [stepped]; exact result, held, redBlack, order⟩
        · obtain ⟨s', whole, result, holds, redBlack, sameOrder⟩ :=
            ih after (by omega) (by
              intro black
              rcases shorter with rfl | isRed
              · omega
              · simp [black] at isRed)
          exact ⟨s', whole, by rw [stepped]; exact result, holds, redBlack, sameOrder.trans order⟩

theorem eraseFix_after {path' : List (Frame Addr)} {only : Shape Addr} {addr : Addr}
    (holds : s.Holds (plug path' only))
    (redBlack : (plug path (.branch side red .nil addr only)).RedBlack)
    (same : ∀ n, Fits path n false → Fits path' n false) (enough : path'.length < fuel) :
    ∃ s' whole,
      (if red then some s else eraseFix fuel s only.root (parentOf path')) = some s' ∧
        s'.Holds whole ∧ whole.RedBlack ∧ whole.inorder = (plug path' only).inorder := by
  have facts := redBlack.without_only
  cases red with
  | true =>
    obtain ⟨fits, black, balanced⟩ := facts
    refine ⟨s, _, rfl, holds, ?_, rfl⟩
    exact Fits.redBlack (by rw [black]; exact same 0 fits) balanced
  | false =>
    obtain ⟨fits, balanced⟩ := facts
    have state : EraseState s path' only 0 :=
      ⟨holds, balanced.blacken, fun _ => balanced, same 1 fits⟩
    exact eraseFix_holds state (by omega) fun _ => enough

theorem eraseRebalance_one_child {s : Links Addr} {path : List (Frame Addr)} {side : Side}
    {red : Bool} {only : Shape Addr} {removed : Addr} {fuel : Nat}
    (holds : s.Holds (plug path (.branch side red .nil removed only)))
    (redBlack : (plug path (.branch side red .nil removed only)).RedBlack)
    (enough : path.length < fuel) :
    ∃ s' whole, eraseRebalance fuel s removed = some s' ∧ s'.Holds whole ∧
      whole.RedBlack ∧ whole.inorder = (plug path only).inorder := by
  have links := holds.node_eq
  obtain ⟨s', whole, result, held⟩ :=
    eraseFix_after (transplant_holds holds) redBlack (fun _ fits => fits) enough
  refine ⟨s', whole, ?_, held⟩
  rw [← result]
  cases side with
  | left => simp [eraseRebalance, links, NodeBase.linked]
  | right =>
    cases onlyRoot : only.root with
    | none | some top => simp [eraseRebalance, links, NodeBase.linked, onlyRoot]

theorem takePlace_holds {inner : List (Frame Addr)} {movedRed : Bool} {left rest : Shape Addr}
    {removed moved : Addr} (holds : s.Holds (plug path (.node red left removed
      (plug inner (.node movedRed .nil moved rest))))) (along : ∀ frame ∈ inner, frame.side = .left)
    (leftNonempty : left ≠ .nil)
    (found : minimum fuel s (s.node removed).right = some (some moved)) :
    ∃ s', takePlace fuel s removed = some (s', movedRed, rest.root,
        parentOf (inner ++ ⟨.right, red, moved, left⟩ :: path)) ∧
      s'.Holds (plug path (.node red left moved (plug inner rest))) := by
  have distinct := holds.distinct
  obtain ⟨within, surroundings, apart⟩ := nodup_plug.1 distinct
  have order : (Shape.node red left removed
      (plug inner (.node movedRed .nil moved rest))).inorder =
        left.inorder ++ removed :: moved :: (plug inner rest).inorder := by
    simp [Shape.inorder, inorder_plug, before_eq_nil along]
  rw [order] at within apart
  have removedOutside : removed ∉ around path := apart removed (by simp)
  have removedFresh : removed ∉ (Shape.node red left moved (plug inner rest)).inorder := by
    rw [nodup_middle, nodup_cons] at within
    simpa [Shape.inorder] using within.1
  have distinct' : (plug path (.node red left moved (plug inner rest))).inorder.Nodup := by
    refine nodup_plug.2 ⟨?_, surroundings, fun a member => apart a ?_⟩
    · exact (List.nodup_cons.1 (List.nodup_middle.1 within)).2
    · simp only [Shape.inorder, mem_append, mem_cons] at member ⊢
      tauto
  obtain ⟨s₁, detach, detached⟩ : ∃ s₁, detachMoved s removed moved =
      some (s₁, parentOf (inner ++ ⟨.right, red, moved, left⟩ :: path)) ∧
        Detached s₁ path red left (plug inner rest) removed moved := by
    cases inner with
    | nil => exact detachMoved_child holds
    | cons frame inner => exact detachMoved_below holds
  obtain ⟨s', replaced, held⟩ :=
    replaceRemoved_holds detached leftNonempty removedOutside removedFresh distinct'
  refine ⟨s', ?_, held⟩
  have movedLinks : s.node moved = ⟨parentOf (inner ++ ⟨.right, red, removed, left⟩ :: path),
      none, rest.root, movedRed⟩ := by
    have atMoved : s.Holds (plug (inner ++ ⟨.right, red, removed, left⟩ :: path)
        (.node movedRed .nil moved rest)) := by
      rw [plug_append]
      exact holds
    exact (Links.holds_plug.1 atMoved).2.1.1
  simp [takePlace, found, movedLinks, detach, replaced]

section

variable {left right : Shape Addr} {removed : Addr}
  (holds : s.Holds (plug path (.node red left removed right)))
  (redBlack : (plug path (.node red left removed right)).RedBlack)
include holds redBlack

theorem eraseRebalance_two_children (leftNonempty : left ≠ .nil) (rightNonempty : right ≠ .nil)
    (enough : (plug path (.node red left removed right)).inorder.length ≤ fuel) :
    ∃ s' whole, eraseRebalance fuel s removed = some s' ∧ s'.Holds whole ∧
      whole.RedBlack ∧
      whole.inorder = before path ++ (left.inorder ++ right.inorder) ++ after path := by
  obtain ⟨here, inLeft, inRight⟩ := (Links.holds_plug.1 holds).2.1
  obtain ⟨top, rightRoot⟩ := Shape.exists_root rightNonempty
  obtain ⟨leftTop, leftRoot⟩ := Shape.exists_root leftNonempty
  have counted := length_le_plug path (.node red left removed right)
  simp only [Shape.inorder, length_append, length_cons] at counted
  obtain ⟨inner, movedRed, moved, rest, rfl, along, result⟩ :=
    @extreme_eq _ s .left right (some removed) top fuel inRight rightRoot (by omega)
  have found : minimum fuel s (s.node removed).right = some (some moved) := by
    rw [here, rightRoot, minimum, result]
    rfl
  obtain ⟨s₁, taken, held⟩ := takePlace_holds holds along leftNonempty found
  have refocused : ∀ addr t, plug path (.node red left addr (plug inner t)) =
      plug (inner ++ ⟨.right, red, addr, left⟩ :: path) t := by
    intro addr t
    rw [plug_append]
    rfl
  rw [refocused] at held redBlack
  have shorter : (inner ++ ⟨.right, red, moved, left⟩ :: path).length < fuel := by
    have bound := length_le_plug inner (.branch .left movedRed .nil moved rest)
    have one : 1 ≤ (Shape.branch .left movedRed .nil moved rest).inorder.length := by
      simp [Shape.branch, Shape.inorder]
    simp only [length_append, length_cons]
    omega
  obtain ⟨s', whole, fixed, holds', redBlack', order⟩ :=
    eraseFix_after held redBlack (fun _ fits => fits.readdress) shorter
  refine ⟨s', whole, ?_, holds', redBlack', ?_⟩
  · rw [← fixed]
    simp [eraseRebalance, here, leftRoot, rightRoot, taken]
  · rw [order, ← refocused, inorder_plug]
    simp [Shape.inorder, Shape.branch, inorder_plug, before_eq_nil along]

theorem eraseRebalance_holds
    (enough : (plug path (.node red left removed right)).inorder.length ≤ fuel) :
    ∃ s' whole, eraseRebalance fuel s removed = some s' ∧ s'.Holds whole ∧
      whole.RedBlack ∧
      whole.inorder = before path ++ (left.inorder ++ right.inorder) ++ after path := by
  have counted := length_le_plug path (.node red left removed right)
  have short : path.length < fuel := by
    simp only [Shape.inorder, length_append, length_cons] at counted
    omega
  by_cases leftEmpty : left = .nil
  · subst leftEmpty
    obtain ⟨s', whole, result, holds', redBlack', order⟩ :=
      @eraseRebalance_one_child _ _ s path .left red right removed fuel holds redBlack short
    exact ⟨s', whole, result, holds', redBlack', by
      rw [order, inorder_plug]; simp [Shape.inorder]⟩
  · by_cases rightEmpty : right = .nil
    · subst rightEmpty
      obtain ⟨s', whole, result, holds', redBlack', order⟩ :=
        @eraseRebalance_one_child _ _ s path .right red left removed fuel holds redBlack short
      exact ⟨s', whole, result, holds', redBlack', by
        rw [order, inorder_plug]; simp [Shape.inorder]⟩
    · exact eraseRebalance_two_children holds redBlack leftEmpty rightEmpty enough

end

end Aburi.Adinkra
