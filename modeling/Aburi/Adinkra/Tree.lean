import Aburi.Lib.LinkedTree

/-!
# The tree runtime of the ordered containers

`adinkra/runtime/tree.cpp`.  A null link is `none`, and following one ends the
function with `none`.  The two mirrored halves of each function are one definition
with the side as its parameter.  Loops take fuel.
-/

namespace Aburi.Adinkra

open Lib

variable {Addr : Type}

def isRed (s : Links Addr) : Option Addr → Bool
  | none => false
  | some node => (s.node node).red

def isBlack (s : Links Addr) (node : Option Addr) : Bool :=
  !isRed s node

variable [DecidableEq Addr]

/-- `if (node != nullptr) node->parent = link;` -/
def setParentOf (s : Links Addr) (node link : Option Addr) : Links Addr :=
  match node with
  | none => s
  | some node => s.setParent node link

/-- `if (node != nullptr) node->red = red;` -/
def setRedOf (s : Links Addr) (node : Option Addr) (red : Bool) : Links Addr :=
  match node with
  | none => s
  | some node => s.setRed node red

/-- The link to `node`, in its parent or in the root, becomes `replacement`; the
child of the parent on `side` is looked at first. -/
def relink (side : Side) (s : Links Addr) (node : Addr) (replacement : Option Addr) :
    Links Addr :=
  match (s.node node).parent with
  | none => { s with root := replacement }
  | some parent =>
    if (s.node parent).child side = some node then
      s.setChild parent side replacement
    else
      s.setChild parent side.other replacement

def rotate (side : Side) (s : Links Addr) (node : Addr) : Option (Links Addr) := do
  let pivot ← (s.node node).child side.other
  let s := s.setChild node side.other ((s.node pivot).child side)
  let s := setParentOf s ((s.node pivot).child side) (some node)
  let s := s.setParent pivot (s.node node).parent
  let s := relink side s node (some pivot)
  let s := s.setChild pivot side (some node)
  some (s.setParent node (some pivot))

def rotateLeft : Links Addr → Addr → Option (Links Addr) :=
  rotate .left

def rotateRight : Links Addr → Addr → Option (Links Addr) :=
  rotate .right

def transplant (s : Links Addr) (removed : Addr) (replacement : Option Addr) :
    Links Addr :=
  let s := relink .left s removed replacement
  setParentOf s replacement (s.node removed).parent

/-- `minimum` follows the left links, `maximum` the right ones. -/
def extreme (side : Side) (s : Links Addr) : Nat → Addr → Option Addr
  | 0, _ => none
  | fuel + 1, node =>
    match (s.node node).child side with
    | none => some node
    | some child => extreme side s fuel child

def minimum (fuel : Nat) (s : Links Addr) : Option Addr → Option (Option Addr)
  | none => some none
  | some node => (extreme .left s fuel node).map some

def maximum (fuel : Nat) (s : Links Addr) : Option Addr → Option (Option Addr)
  | none => some none
  | some node => (extreme .right s fuel node).map some

/-- The first parent on the way up that is not left through its link on `side`. -/
def climb (side : Side) (s : Links Addr) :
    Nat → Addr → Option Addr → Option (Option Addr)
  | 0, _, _ => none
  | fuel + 1, node, parent =>
    match parent with
    | none => some none
    | some above =>
      if some node = (s.node above).child side then
        climb side s fuel above (s.node above).parent
      else
        some parent

def next (fuel : Nat) (s : Links Addr) (node : Addr) : Option (Option Addr) :=
  if (s.node node).right ≠ none then
    minimum fuel s (s.node node).right
  else
    climb .right s fuel node (s.node node).parent

def previous (fuel : Nat) (s : Links Addr) (node : Addr) : Option (Option Addr) :=
  if (s.node node).left ≠ none then
    maximum fuel s (s.node node).left
  else
    climb .left s fuel node (s.node node).parent

/-- The body of the loop of `insert_rebalance` when `parent` is the child of
`grandparent` on `side`; the result is the memory and the new `node`. -/
def insertStep (side : Side) (s : Links Addr) (node parent grandparent : Addr) :
    Option (Links Addr × Addr) := do
  let uncle := (s.node grandparent).child side.other
  if isRed s uncle then
    let uncle ← uncle
    let s := s.setRed parent false
    let s := s.setRed uncle false
    some (s.setRed grandparent true, grandparent)
  else
    let (s, node, parent, grandparent) ←
      if some node = (s.node parent).child side.other then do
        let s ← rotate side s parent
        let above ← (s.node parent).parent
        let grandparent ← (s.node above).parent
        some (s, parent, above, grandparent)
      else
        some (s, node, parent, grandparent)
    let s := s.setRed parent false
    let s := s.setRed grandparent true
    let s ← rotate side.other s grandparent
    some (s, node)

def insertLoop : Nat → Links Addr → Addr → Option (Links Addr)
  | 0, _, _ => none
  | fuel + 1, s, node =>
    if some node ≠ s.root ∧ isRed s (s.node node).parent = true then do
      let parent ← (s.node node).parent
      let grandparent ← (s.node parent).parent
      let (s, node) ←
        if some parent = (s.node grandparent).left then
          insertStep .left s node parent grandparent
        else
          insertStep .right s node parent grandparent
      insertLoop fuel s node
    else
      some s

/-- What every caller of `insert_rebalance` does before: the node gets its parent, and
the null link of the place, a child of the parent or the root, becomes the node. -/
def attach (s : Links Addr) (place : Option (Addr × Side)) (node : Addr) : Links Addr :=
  let s := s.setParent node (place.map Prod.fst)
  match place with
  | none => { s with root := some node }
  | some (parent, side) => s.setChild parent side (some node)

def insertRebalance (fuel : Nat) (s : Links Addr) (node : Addr) :
    Option (Links Addr) := do
  let s := s.setChild node .left none
  let s := s.setChild node .right none
  let s := s.setRed node true
  let s ← insertLoop fuel s node
  let root ← s.root
  some (s.setRed root false)

/-- A red sibling of the child of `parent` on `side` is rotated up; the result is the
memory and the sibling after it. -/
def raiseRedSibling (side : Side) (s : Links Addr) (parent : Addr) :
    Option (Links Addr × Option Addr) :=
  let sibling := (s.node parent).child side.other
  if isRed s sibling then do
    let red ← sibling
    let s := s.setRed red false
    let s := s.setRed parent true
    let s ← rotate side s parent
    some (s, (s.node parent).child side.other)
  else
    some (s, sibling)

/-- When the far child of the sibling is black, its near child is rotated up. -/
def raiseNearChild (side : Side) (s : Links Addr) (parent sibling : Addr) :
    Option (Links Addr × Option Addr) :=
  if isBlack s ((s.node sibling).child side.other) then do
    let s := setRedOf s ((s.node sibling).child side) false
    let s := s.setRed sibling true
    let s ← rotate side.other s sibling
    some (s, (s.node parent).child side.other)
  else
    some (s, some sibling)

/-- The body of the loop of `erase_fix` when `node` is the child of `parent` on
`side`; the result is the memory and the new `node` and `parent`. -/
def eraseStep (side : Side) (s : Links Addr) (parent : Addr) :
    Option (Links Addr × Option Addr × Option Addr) := do
  let (s, sibling) ← raiseRedSibling side s parent
  match sibling with
  | none => some (s, some parent, (s.node parent).parent)
  | some sibling =>
    if isBlack s (s.node sibling).left && isBlack s (s.node sibling).right then
      let s := s.setRed sibling true
      some (s, some parent, (s.node parent).parent)
    else
      let (s, sibling) ← raiseNearChild side s parent sibling
      let sibling ← sibling
      let s := s.setRed sibling (s.node parent).red
      let s := s.setRed parent false
      let s := setRedOf s ((s.node sibling).child side.other) false
      let s ← rotate side s parent
      some (s, s.root, none)

def eraseFix : Nat → Links Addr → Option Addr → Option Addr → Option (Links Addr)
  | 0, _, _, _ => none
  | fuel + 1, s, node, parent =>
    if node ≠ s.root ∧ isBlack s node = true then
      match parent with
      | none => some (setRedOf s node false)
      | some above => do
          let (s, node, parent) ←
            if node = (s.node above).left then
              eraseStep .left s above
            else
              eraseStep .right s above
          eraseFix fuel s node parent
    else
      some (setRedOf s node false)

/-- `moved` leaves its place below `removed` and takes over the right subtree; the
result is the memory and `replacement_parent`. -/
def detachMoved (s : Links Addr) (removed moved : Addr) :
    Option (Links Addr × Option Addr) :=
  let replacement := (s.node moved).right
  if (s.node moved).parent = some removed then
    some (setParentOf s replacement (some moved), some moved)
  else do
    let replacementParent := (s.node moved).parent
    let s := transplant s moved (s.node moved).right
    let s := s.setChild moved .right (s.node removed).right
    let right ← (s.node moved).right
    some (s.setParent right (some moved), replacementParent)

/-- `moved` takes over the parent, the left subtree and the colour of `removed`. -/
def replaceRemoved (s : Links Addr) (removed moved : Addr) : Option (Links Addr) := do
  let s := transplant s removed (some moved)
  let s := s.setChild moved .left (s.node removed).left
  let left ← (s.node moved).left
  let s := s.setParent left (some moved)
  some (s.setRed moved (s.node removed).red)

/-- The branch of `erase_rebalance` for a node with two children: the least node on
its right takes its place.  The result is the memory, the colour that `moved` had,
`replacement` and `replacement_parent`. -/
def takePlace (fuel : Nat) (s : Links Addr) (removed : Addr) :
    Option (Links Addr × Bool × Option Addr × Option Addr) := do
  let moved ← (← minimum fuel s (s.node removed).right)
  let movedWasRed := (s.node moved).red
  let replacement := (s.node moved).right
  let (s, replacementParent) ← detachMoved s removed moved
  let s ← replaceRemoved s removed moved
  some (s, movedWasRed, replacement, replacementParent)

def eraseRebalance (fuel : Nat) (s : Links Addr) (removed : Addr) :
    Option (Links Addr) := do
  let (s, movedWasRed, replacement, replacementParent) ←
    if (s.node removed).left = none then
      some (transplant s removed (s.node removed).right, (s.node removed).red,
        (s.node removed).right, (s.node removed).parent)
    else if (s.node removed).right = none then
      some (transplant s removed (s.node removed).left, (s.node removed).red,
        (s.node removed).left, (s.node removed).parent)
    else
      takePlace fuel s removed
  if movedWasRed then
    some s
  else
    eraseFix fuel s replacement replacementParent

end Aburi.Adinkra
