import Mathlib.Data.List.Nodup
import Mathlib.Data.List.Basic
import Mathlib.Logic.Function.Basic

/-!
# Binary trees linked in memory

A node holds links to its children, a link back to its parent, and a colour bit.
The shape of a tree is a plain inductive value whose nodes are addresses, and a
memory holds a shape when every node of the shape has exactly the links that its
place in the shape demands.  A place is a path of frames, the innermost first:
edits are made at the focus of a path, and the rules say what remains to be
checked about the edited memory.
-/

namespace Aburi.Lib

open List

inductive Side where
  | left
  | right
deriving DecidableEq

def Side.other : Side → Side
  | .left => .right
  | .right => .left

@[simp]
theorem Side.other_other (side : Side) : side.other.other = side := by
  cases side <;> rfl

structure NodeBase (Addr : Type) where
  parent : Option Addr
  left : Option Addr
  right : Option Addr
  red : Bool
deriving DecidableEq

namespace NodeBase

variable {Addr : Type}

def child (node : NodeBase Addr) : Side → Option Addr
  | .left => node.left
  | .right => node.right

def setChild (node : NodeBase Addr) (side : Side) (link : Option Addr) :
    NodeBase Addr :=
  match side with
  | .left => { node with left := link }
  | .right => { node with right := link }

/-- The node with the given links, of which `near` is on `side`. -/
def linked (side : Side) (red : Bool) (near far parent : Option Addr) :
    NodeBase Addr :=
  match side with
  | .left => ⟨parent, near, far, red⟩
  | .right => ⟨parent, far, near, red⟩

section Linked

variable (side : Side) (red : Bool) (near far parent link : Option Addr)

@[simp]
theorem linked_parent : (linked side red near far parent).parent = parent := by
  cases side <;> rfl

@[simp]
theorem linked_red : (linked side red near far parent).red = red := by
  cases side <;> rfl

@[simp]
theorem linked_child : (linked side red near far parent).child side = near := by
  cases side <;> rfl

@[simp]
theorem linked_child_other :
    (linked side red near far parent).child side.other = far := by
  cases side <;> rfl

@[simp]
theorem linked_setChild :
    (linked side red near far parent).setChild side link = linked side red link far parent := by
  cases side <;> rfl

@[simp]
theorem linked_setChild_other :
    (linked side red near far parent).setChild side.other link =
      linked side red near link parent := by
  cases side <;> rfl

@[simp]
theorem linked_setParent :
    { linked side red near far parent with parent := link } = linked side red near far link := by
  cases side <;> rfl

@[simp]
theorem linked_setRed (colour : Bool) :
    { linked side red near far parent with red := colour } =
      linked side colour near far parent := by
  cases side <;> rfl

end Linked

end NodeBase

inductive Shape (Addr : Type) where
  | nil
  | node (red : Bool) (left : Shape Addr) (addr : Addr) (right : Shape Addr)
deriving DecidableEq

namespace Shape

variable {Addr : Type}

def root : Shape Addr → Option Addr
  | nil => none
  | node _ _ addr _ => some addr

@[simp]
theorem root_nil : (nil : Shape Addr).root = none := rfl

@[simp]
theorem root_node (red : Bool) (left right : Shape Addr) (addr : Addr) :
    (node red left addr right).root = some addr := rfl

def inorder : Shape Addr → List Addr
  | nil => []
  | node _ left addr right => left.inorder ++ addr :: right.inorder

/-- The node whose subtree on `side` is `near`. -/
def branch (side : Side) (red : Bool) (near : Shape Addr) (addr : Addr)
    (far : Shape Addr) : Shape Addr :=
  match side with
  | .left => node red near addr far
  | .right => node red far addr near

attribute [local grind =] inorder branch

theorem branch_other (side : Side) (red : Bool) (near : Shape Addr) (addr : Addr)
    (far : Shape Addr) :
    branch side.other red far addr near = branch side red near addr far := by
  cases side <;> rfl

@[simp]
theorem root_branch (side : Side) (red : Bool) (near : Shape Addr) (addr : Addr)
    (far : Shape Addr) : (branch side red near addr far).root = some addr := by
  cases side <;> rfl

theorem exists_branch (side : Side) {t : Shape Addr} (nonempty : t ≠ nil) :
    ∃ red near addr far, t = branch side red near addr far := by
  cases t with
  | nil => exact absurd rfl nonempty
  | node red left addr right =>
    cases side with
    | left => exact ⟨red, left, addr, right, rfl⟩
    | right => exact ⟨red, right, addr, left, rfl⟩

theorem mem_of_root {t : Shape Addr} {a : Addr} (root : t.root = some a) :
    a ∈ t.inorder := by
  cases t with
  | nil => simp [Shape.root] at root
  | node red left addr right =>
    have : addr = a := by simpa [Shape.root] using root
    simp [inorder, this]

theorem exists_root {t : Shape Addr} (nonempty : t ≠ nil) : ∃ top, t.root = some top := by
  cases t with
  | nil => exact absurd rfl nonempty
  | node _ _ top _ => exact ⟨top, rfl⟩

theorem eq_nil_of_root {t : Shape Addr} (empty : t.root = none) : t = nil := by
  cases t with
  | nil => rfl
  | node => simp [root] at empty

theorem mem_branch {side : Side} {red : Bool} {near far : Shape Addr} {addr a : Addr} :
    a ∈ (branch side red near addr far).inorder ↔
      a = addr ∨ a ∈ near.inorder ∨ a ∈ far.inorder := by
  cases side with
  | left | right => simp only [branch, inorder, mem_append, mem_cons]; tauto

theorem nodup_branch {side : Side} {red : Bool} {near far : Shape Addr} {addr : Addr} :
    (branch side red near addr far).inorder.Nodup ↔
      near.inorder.Nodup ∧ far.inorder.Nodup ∧ addr ∉ near.inorder ∧
        addr ∉ far.inorder ∧ List.Disjoint near.inorder far.inorder := by
  have ordered : ∀ first second : List Addr,
      (first ++ addr :: second).Nodup ↔
        first.Nodup ∧ second.Nodup ∧ addr ∉ first ∧ addr ∉ second ∧ List.Disjoint first second := by
    intro first second
    rw [nodup_middle, nodup_cons, nodup_append', mem_append]
    tauto
  cases side with
  | left => exact ordered _ _
  | right =>
    have swapped : List.Disjoint far.inorder near.inorder ↔
        List.Disjoint near.inorder far.inorder := List.disjoint_comm
    simp only [branch, inorder, ordered, swapped]
    tauto

theorem sublist_branch (side : Side) (red : Bool) (near far : Shape Addr) (a : Addr) :
    far.inorder.Sublist (branch side red near a far).inorder := by
  cases side with
  | left | right => simp [branch, inorder]

/-- A rotation towards `side` keeps the order of the nodes. -/
theorem inorder_rotate (side : Side) (red red' pivotRed pivotRed' : Bool)
    (near inner far : Shape Addr) (addr pivot : Addr) :
    (branch side pivotRed (branch side red near addr inner) pivot far).inorder =
      (branch side red' near addr (branch side pivotRed' inner pivot far)).inorder := by
  cases side <;> simp [branch, inorder]

theorem inorder_recolour (side : Side) (red red' : Bool) (near far : Shape Addr)
    (addr : Addr) :
    (branch side red near addr far).inorder = (branch side red' near addr far).inorder := by
  cases side <;> rfl

end Shape

/-- A step from a subtree to its parent `addr`, of which it is the subtree on `side`. -/
structure Frame (Addr : Type) where
  side : Side
  red : Bool
  addr : Addr
  sibling : Shape Addr

namespace Frame

variable {Addr : Type}

def fill (frame : Frame Addr) (t : Shape Addr) : Shape Addr :=
  .branch frame.side frame.red t frame.addr frame.sibling

def before (frame : Frame Addr) : List Addr :=
  match frame.side with
  | .left => []
  | .right => frame.sibling.inorder ++ [frame.addr]

def after (frame : Frame Addr) : List Addr :=
  match frame.side with
  | .left => frame.addr :: frame.sibling.inorder
  | .right => []

theorem inorder_fill (frame : Frame Addr) (t : Shape Addr) :
    (frame.fill t).inorder = frame.before ++ t.inorder ++ frame.after := by
  obtain ⟨side, red, addr, sibling⟩ := frame
  cases side <;> simp [fill, before, after, Shape.branch, Shape.inorder]

end Frame

section Path

variable {Addr : Type}

def plug : List (Frame Addr) → Shape Addr → Shape Addr
  | [], t => t
  | frame :: rest, t => plug rest (frame.fill t)

def before : List (Frame Addr) → List Addr
  | [] => []
  | frame :: rest => before rest ++ frame.before

def after : List (Frame Addr) → List Addr
  | [] => []
  | frame :: rest => frame.after ++ after rest

def around (path : List (Frame Addr)) : List Addr :=
  before path ++ after path

attribute [local grind =] plug before after

def parentOf (path : List (Frame Addr)) : Option Addr :=
  path.head?.map Frame.addr

@[simp]
theorem parentOf_nil : parentOf ([] : List (Frame Addr)) = none := rfl

@[simp]
theorem parentOf_cons (frame : Frame Addr) (rest : List (Frame Addr)) :
    parentOf (frame :: rest) = some frame.addr := rfl

theorem plug_append (first second : List (Frame Addr)) (t : Shape Addr) :
    plug (first ++ second) t = plug second (plug first t) := by
  induction first generalizing t with
  | nil => rfl
  | cons frame rest ih => exact ih (frame.fill t)

section

variable (path : List (Frame Addr)) (side : Side) (red : Bool) (near far : Shape Addr) (addr : Addr)
include path side red near far addr

/-- The same tree, with the focus on the other child of the parent. -/
theorem plug_sibling :
    plug (⟨side.other, red, addr, near⟩ :: path) far =
      plug path (.branch side red near addr far) := by
  rw [plug, Frame.fill, Shape.branch_other]

theorem plug_child :
    plug (⟨side, red, addr, far⟩ :: path) near = plug path (.branch side red near addr far) :=
  rfl

end

theorem inorder_plug (path : List (Frame Addr)) (t : Shape Addr) :
    (plug path t).inorder = before path ++ t.inorder ++ after path := by
  induction path generalizing t with
  | nil => simp [plug, before, after]
  | cons frame rest ih =>
    rw [plug, ih, Frame.inorder_fill]
    simp [before, after]

/-- The focus and its surroundings share no address. -/
theorem nodup_plug {path : List (Frame Addr)} {t : Shape Addr} :
    (plug path t).inorder.Nodup ↔
      t.inorder.Nodup ∧ (around path).Nodup ∧ ∀ a ∈ t.inorder, a ∉ around path := by
  rw [inorder_plug, around, List.append_assoc, nodup_append', nodup_append',
    nodup_append', disjoint_append_right]
  simp only [List.Disjoint, mem_append, not_or]
  constructor
  · rintro ⟨first, ⟨middle, last, away⟩, left, apart⟩
    exact ⟨middle, ⟨first, last, apart⟩, fun a member =>
      ⟨fun earlier => left earlier member, away member⟩⟩
  · rintro ⟨middle, ⟨first, last, apart⟩, away⟩
    exact ⟨first, ⟨middle, last, fun a member => (away a member).2⟩,
      fun a earlier member => (away a member).1 earlier, apart⟩

theorem nodup_plug_sublist {path : List (Frame Addr)} {t t' : Shape Addr}
    (distinct : (plug path t).inorder.Nodup) (sublist : t'.inorder.Sublist t.inorder) :
    (plug path t').inorder.Nodup := by
  obtain ⟨within, surroundings, apart⟩ := nodup_plug.1 distinct
  exact nodup_plug.2 ⟨within.sublist sublist, surroundings,
    fun a member => apart a (sublist.subset member)⟩

theorem mem_around_cons {frame : Frame Addr} {rest : List (Frame Addr)} {a : Addr} :
    a ∈ around (frame :: rest) ↔ a = frame.addr ∨ a ∈ frame.sibling.inorder ∨ a ∈ around rest := by
  obtain ⟨side, red, addr, sibling⟩ := frame
  cases side with
  | left =>
    simp only [around, before, after, Frame.before, Frame.after, mem_append, mem_cons, append_nil]
    tauto
  | right =>
    simp only [around, before, after, Frame.before, Frame.after, mem_append,
      mem_cons, nil_append, not_mem_nil]
    tauto

theorem nodup_around_cons {frame : Frame Addr} {rest : List (Frame Addr)}
    (distinct : (around (frame :: rest)).Nodup) :
    frame.addr ∉ frame.sibling.inorder ∧ frame.addr ∉ around rest ∧
      (around rest).Nodup ∧ ∀ a ∈ frame.sibling.inorder, a ∉ around rest := by
  have whole : (plug (frame :: rest) .nil).inorder.Nodup :=
    nodup_plug.2 ⟨.nil, distinct, by simp [Shape.inorder]⟩
  obtain ⟨within, above, apart⟩ := nodup_plug.1 (show (plug rest _).inorder.Nodup from whole)
  obtain ⟨-, -, -, notBeside, -⟩ := Shape.nodup_branch.1 within
  exact ⟨notBeside, apart _ (Shape.mem_branch.2 (.inl rfl)), above,
    fun a member => apart a (Shape.mem_branch.2 (.inr (.inr member)))⟩

theorem length_le_plug (path : List (Frame Addr)) (t : Shape Addr) :
    path.length + t.inorder.length ≤ (plug path t).inorder.length := by
  induction path generalizing t with
  | nil => simp [plug]
  | cons frame rest ih =>
    have bound := ih (frame.fill t)
    have grown : t.inorder.length + 1 ≤ (frame.fill t).inorder.length := by
      obtain ⟨side, red, addr, sibling⟩ := frame
      cases side <;> simp [Frame.fill, Shape.branch, Shape.inorder]
    simp only [length_cons, plug]
    omega

/-- Nothing comes before a focus that is reached by left links only. -/
theorem before_eq_nil {path : List (Frame Addr)} (along : ∀ frame ∈ path, frame.side = .left) :
    before path = [] := by
  induction path with
  | nil => rfl
  | cons frame rest ih =>
    have sided := along frame (.head _)
    rw [before, ih fun other member => along other (.tail _ member)]
    simp [Frame.before, sided]

theorem plug_ne_nil (frame : Frame Addr) (rest : List (Frame Addr)) (t : Shape Addr) :
    plug (frame :: rest) t ≠ .nil := by
  intro empty
  have counted := length_le_plug (frame :: rest) t
  rw [empty] at counted
  simp [Shape.inorder] at counted

/-- Every node of a shape is the root of the focus of some path. -/
theorem exists_plug {t : Shape Addr} {a : Addr} (member : a ∈ t.inorder) :
    ∃ path red left right, t = plug path (.node red left a right) := by
  induction t with
  | nil => simp [Shape.inorder] at member
  | node red left addr right leftIh rightIh =>
    simp only [Shape.inorder, mem_append, mem_cons] at member
    rcases member with inLeft | rfl | inRight
    · obtain ⟨path, red', left', right', equality⟩ := leftIh inLeft
      refine ⟨path ++ [⟨.left, red, addr, right⟩], red', left', right', ?_⟩
      rw [plug_append, ← equality]
      rfl
    · exact ⟨[], red, left, right, rfl⟩
    · obtain ⟨path, red', left', right', equality⟩ := rightIh inRight
      refine ⟨path ++ [⟨.right, red, addr, left⟩], red', left', right', ?_⟩
      rw [plug_append, ← equality]
      rfl

end Path

/-- The nodes in memory and the variable that holds the root. -/
structure Links (Addr : Type) where
  root : Option Addr
  node : Addr → NodeBase Addr

namespace Links

variable {Addr : Type} [DecidableEq Addr]

def modify (s : Links Addr) (a : Addr) (f : NodeBase Addr → NodeBase Addr) :
    Links Addr :=
  { s with node := Function.update s.node a (f (s.node a)) }

def setParent (s : Links Addr) (a : Addr) (link : Option Addr) : Links Addr :=
  s.modify a fun node => { node with parent := link }

def setChild (s : Links Addr) (a : Addr) (side : Side) (link : Option Addr) :
    Links Addr :=
  s.modify a fun node => node.setChild side link

def setRed (s : Links Addr) (a : Addr) (red : Bool) : Links Addr :=
  s.modify a fun node => { node with red := red }

section Modify

variable (s : Links Addr) (a b : Addr)

@[simp]
theorem modify_root (f : NodeBase Addr → NodeBase Addr) : (s.modify a f).root = s.root := rfl

theorem modify_node (f : NodeBase Addr → NodeBase Addr) :
    (s.modify a f).node b = if b = a then f (s.node a) else s.node b := by
  simp [modify, Function.update_apply]

@[simp]
theorem setParent_root (link : Option Addr) : (s.setParent a link).root = s.root := rfl

@[simp]
theorem setChild_root (side : Side) (link : Option Addr) :
    (s.setChild a side link).root = s.root := rfl

@[simp]
theorem setRed_root (red : Bool) : (s.setRed a red).root = s.root := rfl

theorem setParent_node (link : Option Addr) :
    (s.setParent a link).node b = if b = a then { s.node a with parent := link } else s.node b :=
  modify_node s a b _

theorem setChild_node (side : Side) (link : Option Addr) :
    (s.setChild a side link).node b = if b = a then (s.node a).setChild side link else s.node b :=
  modify_node s a b _

theorem setRed_node (red : Bool) :
    (s.setRed a red).node b = if b = a then { s.node a with red := red } else s.node b :=
  modify_node s a b _

end Modify

end Links

section Represents

variable {Addr : Type}

/-- Every node of the shape has the links that its place demands. -/
def Represents (node : Addr → NodeBase Addr) : Shape Addr → Option Addr → Prop
  | .nil, _ => True
  | .node red left addr right, parent =>
    node addr = ⟨parent, left.root, right.root, red⟩ ∧
      Represents node left (some addr) ∧ Represents node right (some addr)

theorem represents_branch {node : Addr → NodeBase Addr} {side : Side} {red : Bool}
    {near far : Shape Addr} {addr : Addr} {parent : Option Addr} :
    Represents node (.branch side red near addr far) parent ↔
      node addr = .linked side red near.root far.root parent ∧
        Represents node near (some addr) ∧ Represents node far (some addr) := by
  cases side with
  | left => rfl
  | right =>
    simp only [Shape.branch, Represents, NodeBase.linked]
    tauto

theorem Represents.congr {node node' : Addr → NodeBase Addr} {t : Shape Addr}
    {parent : Option Addr} (represented : Represents node t parent)
    (same : ∀ a ∈ t.inorder, node' a = node a) : Represents node' t parent := by
  induction t generalizing parent with
  | nil => trivial
  | node red left addr right leftIh rightIh =>
    obtain ⟨here, inLeft, inRight⟩ := represented
    refine ⟨?_, leftIh inLeft ?_, rightIh inRight ?_⟩
    · rw [same addr (by simp [Shape.inorder]), here]
    · exact fun a member => same a (by simp [Shape.inorder, member])
    · exact fun a member => same a (by simp [Shape.inorder, member])

/-- A subtree is hung below another parent by changing the one link of its root. -/
theorem Represents.reparent {node node' : Addr → NodeBase Addr} {t : Shape Addr}
    {parent parent' : Option Addr} (represented : Represents node t parent)
    (distinct : t.inorder.Nodup)
    (changed : ∀ a, t.root = some a → node' a = { node a with parent := parent' })
    (same : ∀ a ∈ t.inorder, t.root ≠ some a → node' a = node a) :
    Represents node' t parent' := by
  cases t with
  | nil => trivial
  | node red left addr right =>
    obtain ⟨here, inLeft, inRight⟩ := represented
    have apart := (@Shape.nodup_branch _ .left red _ _ _).1 distinct
    refine ⟨?_, inLeft.congr ?_, inRight.congr ?_⟩
    · rw [changed addr rfl, here]
    · intro a member
      apply same a (by simp [Shape.inorder, member])
      rintro ⟨rfl⟩
      exact apart.2.2.1 member
    · intro a member
      apply same a (by simp [Shape.inorder, member])
      rintro ⟨rfl⟩
      exact apart.2.2.2.1 member

end Represents

namespace Links

variable {Addr : Type}

/-- The memory holds everything outside the focus of a path, with `link` where the
link to the focus is. -/
def Surrounds (s : Links Addr) : List (Frame Addr) → Option Addr → Prop
  | [], link => s.root = link
  | frame :: rest, link =>
    s.node frame.addr = .linked frame.side frame.red link frame.sibling.root (parentOf rest) ∧
      Represents s.node frame.sibling (some frame.addr) ∧ s.Surrounds rest (some frame.addr)

theorem Surrounds.congr {s s' : Links Addr} {path : List (Frame Addr)}
    {link : Option Addr} (surrounded : s.Surrounds path link)
    (sameRoot : s'.root = s.root) (same : ∀ a ∈ around path, s'.node a = s.node a) :
    s'.Surrounds path link := by
  induction path generalizing link with
  | nil => exact sameRoot.trans surrounded
  | cons frame rest ih =>
    obtain ⟨here, beside, above⟩ := surrounded
    refine ⟨?_, beside.congr ?_, ih above ?_⟩
    · rw [same _ (mem_around_cons.2 (.inl rfl)), here]
    · exact fun a member => same a (mem_around_cons.2 (.inr (.inl member)))
    · exact fun a member => same a (mem_around_cons.2 (.inr (.inr member)))

/-- The memory holds a tree of the given shape, with a root that has no parent. -/
structure Holds (s : Links Addr) (t : Shape Addr) : Prop where
  rooted : s.root = t.root
  represented : Represents s.node t none
  distinct : t.inorder.Nodup

section

variable {s : Links Addr}

theorem holds_plug {path : List (Frame Addr)} {t : Shape Addr} :
    s.Holds (plug path t) ↔
      s.Surrounds path t.root ∧ Represents s.node t (parentOf path) ∧
        (plug path t).inorder.Nodup := by
  have split : (s.root = (plug path t).root ∧ Represents s.node (plug path t) none) ↔
      s.Surrounds path t.root ∧ Represents s.node t (parentOf path) := by
    induction path generalizing t with
    | nil => rfl
    | cons frame rest ih =>
      rw [plug, ih, Frame.fill, represents_branch, Shape.root_branch,
        parentOf_cons, Surrounds]
      tauto
  constructor
  · rintro ⟨rooted, represented, distinct⟩
    obtain ⟨outside, inside⟩ := split.1 ⟨rooted, represented⟩
    exact ⟨outside, inside, distinct⟩
  · rintro ⟨outside, inside, distinct⟩
    obtain ⟨rooted, represented⟩ := split.2 ⟨outside, inside⟩
    exact ⟨rooted, represented, distinct⟩

theorem Holds.node_eq {path : List (Frame Addr)} {side : Side} {red : Bool} {near far : Shape Addr}
    {a : Addr} (holds : s.Holds (plug path (.branch side red near a far))) :
    s.node a = .linked side red near.root far.root (parentOf path) :=
  (represents_branch.1 (holds_plug.1 holds).2.1).1

theorem Holds.parent_eq {frame : Frame Addr} {rest : List (Frame Addr)} {t : Shape Addr}
    (holds : s.Holds (plug (frame :: rest) t)) :
    s.node frame.addr = .linked frame.side frame.red t.root frame.sibling.root (parentOf rest) :=
  (holds_plug.1 holds).1.1

/-- The two children of a node are different. -/
theorem Holds.sibling_ne {frame : Frame Addr} {rest : List (Frame Addr)} {t : Shape Addr} {a : Addr}
    (holds : s.Holds (plug (frame :: rest) t)) (root : t.root = some a) :
    some a ≠ frame.sibling.root := by
  intro same
  have member := Shape.mem_of_root same.symm
  exact (nodup_plug.1 holds.distinct).2.2 a (Shape.mem_of_root root)
    (mem_around_cons.2 (.inr (.inl member)))

theorem Holds.root_nil {t : Shape Addr} (holds : s.Holds (plug [] t)) :
    s.root = t.root :=
  holds.rooted

/-- The root of a proper focus is not the root of the whole tree. -/
theorem Holds.root_ne {frame : Frame Addr} {rest : List (Frame Addr)} {t : Shape Addr}
    (holds : s.Holds (plug (frame :: rest) t)) : t.root ≠ s.root := by
  intro same
  obtain ⟨-, outside, apart⟩ := nodup_plug.1 holds.distinct
  have nonempty : ∃ top ∈ around (frame :: rest), s.root = some top := by
    have surrounded := (holds_plug.1 holds).1
    generalize t.root = link at surrounded
    clear same apart outside holds
    induction rest generalizing frame link with
    | nil => exact ⟨frame.addr, mem_around_cons.2 (.inl rfl), surrounded.2.2⟩
    | cons next rest ih =>
      obtain ⟨top, member, equality⟩ := ih _ surrounded.2.2
      exact ⟨top, mem_around_cons.2 (.inr (.inr member)), equality⟩
  obtain ⟨top, member, equality⟩ := nonempty
  cases t with
  | nil => simp [Shape.root, equality] at same
  | node red left addr right =>
    have : addr = top := by simpa [Shape.root, equality] using same
    subst this
    exact apart addr (by simp [Shape.inorder]) member

end

/-- What has to be checked when the focus is replaced by one with the same nodes. -/
theorem Holds.replace {s s' : Links Addr} {path : List (Frame Addr)}
    {t t' : Shape Addr} (holds : s.Holds (plug path t))
    (sameOrder : t'.inorder = t.inorder) (outside : s'.Surrounds path t'.root)
    (inside : Represents s'.node t' (parentOf path)) : s'.Holds (plug path t') := by
  refine holds_plug.2 ⟨outside, inside, ?_⟩
  rw [inorder_plug, sameOrder, ← inorder_plug]
  exact holds.distinct

theorem Holds.setRed [DecidableEq Addr] {s : Links Addr} {path : List (Frame Addr)}
    {side : Side} {red : Bool} {near far : Shape Addr} {a : Addr} (colour : Bool)
    (holds : s.Holds (plug path (.branch side red near a far))) :
    (s.setRed a colour).Holds (plug path (.branch side colour near a far)) := by
  obtain ⟨outside, inside, distinct⟩ := holds_plug.1 holds
  obtain ⟨here, inNear, inFar⟩ := represents_branch.1 inside
  obtain ⟨within, -, apart⟩ := nodup_plug.1 distinct
  obtain ⟨-, -, notNear, notFar, -⟩ := Shape.nodup_branch.1 within
  apply holds.replace (Shape.inorder_recolour side colour red near far a)
  · rw [Shape.root_branch]
    rw [Shape.root_branch] at outside
    refine outside.congr rfl fun b member => ?_
    rw [setRed_node, if_neg]
    rintro rfl
    exact apart b (Shape.mem_branch.2 (.inl rfl)) member
  · refine represents_branch.2 ⟨?_, inNear.congr ?_, inFar.congr ?_⟩
    · rw [setRed_node, if_pos rfl, here, NodeBase.linked_setRed]
    · intro b member
      rw [setRed_node, if_neg (ne_of_mem_of_not_mem member notNear)]
    · intro b member
      rw [setRed_node, if_neg (ne_of_mem_of_not_mem member notFar)]

end Links

end Aburi.Lib
