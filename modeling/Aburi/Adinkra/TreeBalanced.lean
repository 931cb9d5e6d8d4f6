import Aburi.Adinkra.TreeErase
import Aburi.Adinkra.TreeInsert

/-!
# The tree stays balanced and ordered

The results about insertion, removal and walking, stated for the nodes of the memory
and their order, without the paths of the proofs.
-/

namespace Aburi.Adinkra

open Lib

variable {Addr : Type}

/-- A null link of the tree: the root of an empty tree, or a child that a node of the
tree does not have. -/
def LeafPlace (s : Links Addr) (t : Shape Addr) : Option (Addr × Side) → Prop
  | none => s.root = none
  | some (parent, side) => parent ∈ t.inorder ∧ (s.node parent).child side = none

/-- The list `new` is `old` with `node` added next to the parent of the place. -/
def AddedAt (place : Option (Addr × Side)) (node : Addr) (old new : List Addr) : Prop :=
  match place with
  | none => old = [] ∧ new = [node]
  | some (parent, .left) =>
    ∃ first last, old = first ++ parent :: last ∧ new = first ++ node :: parent :: last
  | some (parent, .right) =>
    ∃ first last, old = first ++ parent :: last ∧ new = first ++ parent :: node :: last

variable {s : Links Addr} {t : Shape Addr}

theorem LeafPlace.exists_path {place : Option (Addr × Side)} (holds : s.Holds t)
    (leaf : LeafPlace s t place) :
    ∃ path, t = plug path .nil ∧ placeOf path = place ∧
      ∀ node, AddedAt place node t.inorder (before path ++ node :: after path) := by
  match place with
  | none =>
    have empty : t = .nil := Shape.eq_nil_of_root (holds.rooted.symm.trans leaf)
    subst empty
    exact ⟨[], rfl, rfl, fun node => ⟨rfl, rfl⟩⟩
  | some (parent, side) =>
    obtain ⟨member, null⟩ := leaf
    obtain ⟨path, red, left, right, rfl⟩ := exists_plug member
    have links := (Links.holds_plug.1 holds).2.1.1
    rw [links] at null
    cases side with
    | left =>
      have empty : left = .nil := Shape.eq_nil_of_root null
      subst empty
      refine ⟨⟨.left, red, parent, right⟩ :: path, rfl, rfl, fun node => ?_⟩
      refine ⟨before path, right.inorder ++ after path, ?_, ?_⟩
      · simp [inorder_plug, Shape.inorder]
      · simp [before, after, Frame.before, Frame.after]
    | right =>
      have empty : right = .nil := Shape.eq_nil_of_root null
      subst empty
      refine ⟨⟨.right, red, parent, left⟩ :: path, rfl, rfl, fun node => ?_⟩
      refine ⟨before path ++ left.inorder, after path, ?_, ?_⟩
      · simp [inorder_plug, Shape.inorder]
      · simp [before, after, Frame.before, Frame.after]

/-- A place of a node in the order is its place in the tree. -/
theorem exists_plug_of_inorder {first last : List Addr} {node : Addr} (distinct : t.inorder.Nodup)
    (order : t.inorder = first ++ node :: last) :
    ∃ path red left right, t = plug path (.node red left node right) ∧
      first = before path ++ left.inorder ∧ last = right.inorder ++ after path := by
  obtain ⟨path, red, left, right, rfl⟩ := @exists_plug _ t node (by simp [order])
  have split : first ++ node :: last =
      (before path ++ left.inorder) ++ node :: (right.inorder ++ after path) := by
    rw [← order, inorder_plug]
    simp [Shape.inorder]
  have apart : node ∉ first ∧ node ∉ last := by
    rw [order] at distinct
    have fresh := (List.nodup_cons.1 (List.nodup_middle.1 distinct)).1
    rwa [List.mem_append, not_or] at fresh
  obtain ⟨sameFirst, -, sameLast⟩ := (List.append_cons_inj_of_notMem apart.1 apart.2).1 split
  exact ⟨path, red, left, right, rfl, sameFirst, sameLast⟩

variable [DecidableEq Addr]

theorem insertRebalance_at_leaf {fuel : Nat} {place : Option (Addr × Side)} {node : Addr}
    (holds : s.Holds t) (redBlack : t.RedBlack) (enough : t.inorder.length < fuel)
    (leaf : LeafPlace s t place) (fresh : node ∉ t.inorder) :
    ∃ s' t', insertRebalance fuel (attach s place node) node = some s' ∧ s'.Holds t' ∧
      t'.RedBlack ∧ AddedAt place node t.inorder t'.inorder := by
  obtain ⟨path, rfl, rfl, added⟩ := leaf.exists_path holds
  have counted := length_le_plug path .nil
  obtain ⟨s', t', result, holds', redBlack', order⟩ :=
    insertRebalance_holds holds redBlack fresh
      (show path.length < fuel by simp only [Shape.inorder, List.length_nil] at counted; omega)
  refine ⟨s', t', result, holds', redBlack', ?_⟩
  rw [order]
  exact added node

theorem eraseRebalance_member {s : Links Addr} {t : Shape Addr} {fuel : Nat}
    {first last : List Addr} {node : Addr} (holds : s.Holds t) (redBlack : t.RedBlack)
    (enough : t.inorder.length < fuel) (order : t.inorder = first ++ node :: last) :
    ∃ s' t', eraseRebalance fuel s node = some s' ∧ s'.Holds t' ∧ t'.RedBlack ∧
      t'.inorder = first ++ last := by
  obtain ⟨path, red, left, right, rfl, rfl, rfl⟩ := exists_plug_of_inorder holds.distinct order
  obtain ⟨s', t', result, holds', redBlack', order'⟩ :=
    eraseRebalance_holds holds redBlack (Nat.le_of_lt enough)
  refine ⟨s', t', result, holds', redBlack', ?_⟩
  rw [order']
  simp

section

variable {fuel : Nat} {first last : List Addr} {node : Addr} (holds : s.Holds t)
  (enough : t.inorder.length < fuel) (order : t.inorder = first ++ node :: last)
include holds enough order

theorem next_member :
    next fuel s node = some last.head? := by
  obtain ⟨path, red, left, right, rfl, rfl, rfl⟩ := exists_plug_of_inorder holds.distinct order
  rw [next_eq, @neighbour_eq _ _ s .right path red right left node fuel holds
    (Nat.le_of_lt enough), ahead_right]
  rfl

theorem previous_member :
    previous fuel s node = some first.getLast? := by
  obtain ⟨path, red, left, right, rfl, rfl, rfl⟩ := exists_plug_of_inorder holds.distinct order
  rw [previous_eq, @neighbour_eq _ _ s .left path red left right node fuel holds
    (Nat.le_of_lt enough), ahead_left, listed, ← List.reverse_append, List.head?_reverse]

end

/-- From a red-black tree, an insertion at any null link and a removal of any node end
without following a null link and leave a red-black tree, in whose order exactly the
one node was added or deleted; `next` and `previous` follow the order. -/
theorem tree_stays_balanced {s : Links Addr} {t : Shape Addr} {fuel : Nat}
    (holds : s.Holds t) (redBlack : t.RedBlack) (enough : t.inorder.length < fuel) :
    (∀ place node, LeafPlace s t place → node ∉ t.inorder →
      ∃ s' t', insertRebalance fuel (attach s place node) node = some s' ∧ s'.Holds t' ∧
        t'.RedBlack ∧ AddedAt place node t.inorder t'.inorder) ∧
    (∀ first node last, t.inorder = first ++ node :: last →
      (∃ s' t', eraseRebalance fuel s node = some s' ∧ s'.Holds t' ∧ t'.RedBlack ∧
        t'.inorder = first ++ last) ∧
      next fuel s node = some last.head? ∧ previous fuel s node = some first.getLast?) := by
  constructor
  · intro place node leaf fresh
    exact insertRebalance_at_leaf holds redBlack enough leaf fresh
  · intro first node last order
    exact ⟨eraseRebalance_member holds redBlack enough order,
      next_member holds enough order, previous_member holds enough order⟩

/-- Two nodes: a black root with a red left child. -/
def twoNodes : Links Nat where
  root := some 1
  node a := if a = 1 then ⟨none, some 0, none, false⟩ else ⟨some 1, none, none, true⟩

theorem twoNodes_stays_balanced :
    (∃ s' t', insertRebalance 3 (attach twoNodes (some (0, .right)) 2) 2 = some s' ∧
      s'.Holds t' ∧ t'.RedBlack ∧ AddedAt (some (0, .right)) 2 [0, 1] t'.inorder) ∧
    (∃ s' t', eraseRebalance 3 twoNodes 1 = some s' ∧ s'.Holds t' ∧ t'.RedBlack ∧
      t'.inorder = [0]) ∧
    next 3 twoNodes 0 = some (some 1) ∧ previous 3 twoNodes 0 = some none := by
  have holds : twoNodes.Holds (.node false (.node true .nil 0 .nil) 1 .nil) :=
    ⟨rfl, ⟨rfl, ⟨rfl, trivial, trivial⟩, trivial⟩, by decide⟩
  have redBlack : (Shape.node false (.node true .nil 0 .nil) 1 .nil).RedBlack :=
    ⟨rfl, 1, 0, rfl, ⟨rfl, rfl, rfl, rfl⟩, rfl⟩
  obtain ⟨inserted, walked⟩ := tree_stays_balanced holds redBlack (show _ < 3 by decide)
  exact ⟨inserted (some (0, .right)) 2 ⟨by decide, rfl⟩ (by decide),
    (walked [0] 1 [] rfl).1, (walked [] 0 [1] rfl).2⟩

end Aburi.Adinkra
