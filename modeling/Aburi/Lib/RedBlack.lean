import Aburi.Lib.LinkedTree

/-!
# Red-black shapes

A shape is balanced with black height `n` when no red node has a red child and
every way down from its root passes `n` black nodes.  What a path demands of its
focus is kept apart from the focus: rebalancing walks up a path, and at each step
only the focus fails the demand.
-/

namespace Aburi.Lib

variable {Addr : Type}

variable {t : Shape Addr} {side : Side} {addr : Addr} {n : Nat}

namespace Shape

def isRed : Shape Addr → Bool
  | nil => false
  | node red _ _ _ => red

/-- No red node has a red child, and every way down passes `n` black nodes. -/
def Balanced : Shape Addr → Nat → Prop
  | nil, n => n = 0
  | node true left _ right, n =>
    left.isRed = false ∧ right.isRed = false ∧ left.Balanced n ∧ right.Balanced n
  | node false left _ right, n =>
    ∃ below, n = below + 1 ∧ left.Balanced below ∧ right.Balanced below

structure RedBlack (t : Shape Addr) : Prop where
  rootBlack : t.isRed = false
  balanced : ∃ n, t.Balanced n

/-- The shape with the colour of its root changed. -/
def recolour (red : Bool) : Shape Addr → Shape Addr
  | nil => nil
  | node _ left addr right => node red left addr right

attribute [local grind =] isRed Balanced recolour

@[simp]
theorem isRed_branch (side : Side) (red : Bool) (near far : Shape Addr) (addr : Addr) :
    (branch side red near addr far).isRed = red := by
  cases side <;> rfl

@[simp]
theorem recolour_branch (side : Side) (red colour : Bool) (near far : Shape Addr)
    (addr : Addr) :
    (branch side red near addr far).recolour colour = branch side colour near addr far := by
  cases side <;> rfl

theorem recolour_false (black : t.isRed = false) :
    t.recolour false = t := by
  cases t with
  | nil => rfl
  | node red left addr right =>
    rw [isRed] at black
    rw [recolour, black]

@[simp]
theorem inorder_recoloured (t : Shape Addr) (colour : Bool) :
    (t.recolour colour).inorder = t.inorder := by
  cases t <;> rfl

theorem balanced_red {near far : Shape Addr} :
    (branch side true near addr far).Balanced n ↔
      near.isRed = false ∧ far.isRed = false ∧ near.Balanced n ∧ far.Balanced n := by
  cases side with
  | left => rfl
  | right => simp only [branch, Balanced]; tauto

theorem balanced_black {side : Side} {near far : Shape Addr} {addr : Addr} {n : Nat} :
    (branch side false near addr far).Balanced (n + 1) ↔ near.Balanced n ∧ far.Balanced n := by
  cases side with
  | left => simp [branch, Balanced]
  | right => simp [branch, Balanced, and_comm]

theorem not_balanced_black_zero {near far : Shape Addr} :
    ¬(branch side false near addr far).Balanced 0 := by
  cases side <;> simp [branch, Balanced]

theorem Balanced.ne_nil (balanced : t.Balanced (n + 1)) :
    t ≠ nil := by
  rintro rfl
  simp [Balanced] at balanced

/-- A balanced shape whose root is red may have its root painted black. -/
theorem Balanced.blacken (balanced : t.Balanced n) (red : t.isRed = true) :
    (t.recolour false).Balanced (n + 1) := by
  cases t with
  | nil => simp [isRed] at red
  | node colour left addr right =>
    rw [isRed] at red
    subst red
    exact (@balanced_black _ .left _ _ _ _).2 ⟨balanced.2.2.1, balanced.2.2.2⟩

end Shape

/-- What the surroundings demand of a focus of black height `n`, which is red only if
`red` is set, for the whole tree to be red-black. -/
def Fits : List (Frame Addr) → Nat → Bool → Prop
  | [], _, red => red = false
  | ⟨_, true, _, sibling⟩ :: rest, n, red =>
    red = false ∧ sibling.isRed = false ∧ sibling.Balanced n ∧ Fits rest n true
  | ⟨_, false, _, sibling⟩ :: rest, n, _ =>
    sibling.Balanced n ∧ Fits rest (n + 1) false

variable {path : List (Frame Addr)}

theorem Fits.black {red : Bool} (fits : Fits path n red) : Fits path n false := by
  cases path with
  | nil => rfl
  | cons frame rest =>
    obtain ⟨side, colour, addr, sibling⟩ := frame
    cases colour with
    | true => exact ⟨rfl, fits.2⟩
    | false => exact fits

/-- Below a black parent the colour of the focus is free. -/
theorem Fits.red {sibling : Shape Addr} {rest : List (Frame Addr)} {red : Bool}
    (fits : Fits (⟨side, false, addr, sibling⟩ :: rest) n red) (red' : Bool) :
    Fits (⟨side, false, addr, sibling⟩ :: rest) n red' :=
  fits

theorem Fits.redBlack {path : List (Frame Addr)} {t : Shape Addr} {n : Nat}
    (fits : Fits path n t.isRed) (balanced : t.Balanced n) : (plug path t).RedBlack := by
  induction path generalizing t n with
  | nil => exact ⟨fits, n, balanced⟩
  | cons frame rest ih =>
    obtain ⟨side, colour, addr, sibling⟩ := frame
    cases colour with
    | true =>
      obtain ⟨black, siblingBlack, siblingBalanced, above⟩ := fits
      apply @ih (.branch side true t addr sibling) n
      · rw [Shape.isRed_branch]
        exact above
      · exact Shape.balanced_red.2 ⟨black, siblingBlack, balanced, siblingBalanced⟩
    | false =>
      obtain ⟨siblingBalanced, above⟩ := fits
      apply @ih (.branch side false t addr sibling) (n + 1)
      · rw [Shape.isRed_branch]
        exact above
      · exact Shape.balanced_black.2 ⟨balanced, siblingBalanced⟩

theorem Shape.RedBlack.fits (redBlack : (plug path t).RedBlack) :
    ∃ n, Fits path n t.isRed ∧ t.Balanced n := by
  induction path generalizing t with
  | nil =>
    obtain ⟨n, balanced⟩ := redBlack.balanced
    exact ⟨n, redBlack.rootBlack, balanced⟩
  | cons frame rest ih =>
    obtain ⟨n, fits, balanced⟩ := ih redBlack
    obtain ⟨side, colour, addr, sibling⟩ := frame
    rw [Frame.fill, Shape.isRed_branch] at fits
    cases colour with
    | true =>
      obtain ⟨black, siblingBlack, focus, beside⟩ := Shape.balanced_red.1 balanced
      exact ⟨n, ⟨black, siblingBlack, beside, fits⟩, focus⟩
    | false =>
      cases n with
      | zero => exact absurd balanced Shape.not_balanced_black_zero
      | succ below =>
        obtain ⟨focus, beside⟩ := Shape.balanced_black.1 balanced
        exact ⟨below, ⟨beside, fits⟩, focus⟩

/-- What a path demands does not depend on which nodes are on it. -/
theorem Fits.readdress {first rest : List (Frame Addr)} {red : Bool} {addr' : Addr}
    {sibling : Shape Addr} {focus : Bool}
    (fits : Fits (first ++ ⟨side, red, addr, sibling⟩ :: rest) n focus) :
    Fits (first ++ ⟨side, red, addr', sibling⟩ :: rest) n focus := by
  induction first generalizing n focus with
  | nil =>
    cases red with
    | true | false => exact fits
  | cons frame first ih =>
    obtain ⟨side', red', addr', sibling'⟩ := frame
    cases red' with
    | true => exact ⟨fits.1, fits.2.1, fits.2.2.1, ih fits.2.2.2⟩
    | false => exact ⟨fits.1, ih fits.2⟩

/-- Where a node with at most one child was taken out of a red-black tree, a black
node lacks if the node was black. -/
theorem Shape.RedBlack.without_only {red : Bool} {only : Shape Addr}
    (redBlack : (plug path (.branch side red .nil addr only)).RedBlack) :
    if red then Fits path 0 false ∧ only.isRed = false ∧ only.Balanced 0
    else Fits path 1 false ∧ only.Balanced 0 := by
  obtain ⟨n, fits, balanced⟩ := redBlack.fits
  rw [Shape.isRed_branch] at fits
  cases red with
  | true =>
    obtain ⟨-, onlyBlack, empty, onlyBalanced⟩ := Shape.balanced_red.1 balanced
    have zero : n = 0 := empty
    subst zero
    exact ⟨fits.black, onlyBlack, onlyBalanced⟩
  | false =>
    cases n with
    | zero => exact absurd balanced Shape.not_balanced_black_zero
    | succ n =>
      obtain ⟨empty, onlyBalanced⟩ := Shape.balanced_black.1 balanced
      have zero : n = 0 := empty
      subst zero
      exact ⟨fits, onlyBalanced⟩

end Aburi.Lib
