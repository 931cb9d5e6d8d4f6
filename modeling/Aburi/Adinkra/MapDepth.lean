import Aburi.Adinkra.MapHistories
import Mathlib.Algebra.Ring.Nat

/-!
# Descents are short

A red-black tree with `n` nodes is at most `2 * log2 (n + 1)` high, and no descent of a
container takes more steps than its tree is high.
-/

namespace Aburi

namespace Lib.Shape

variable {Addr : Type} {t : Shape Addr} {n : Nat}

def height : Shape Addr → Nat
  | nil => 0
  | node _ left _ right => max left.height right.height + 1

theorem Balanced.bounds (balanced : t.Balanced n) :
    t.height ≤ 2 * n + t.isRed.toNat ∧ 2 ^ n ≤ t.inorder.length + 1 := by
  induction t generalizing n with
  | nil => simp_all [Balanced, height, inorder]
  | node red left addr right leftIh rightIh =>
    simp only [height, inorder, List.length_append, List.length_cons]
    cases red with
    | true =>
      obtain ⟨leftBlack, rightBlack, inLeft, inRight⟩ := balanced
      have leftBounds := leftIh inLeft
      have rightBounds := rightIh inRight
      rw [leftBlack, Bool.toNat_false] at leftBounds
      rw [rightBlack, Bool.toNat_false] at rightBounds
      simp only [isRed, Bool.toNat_true]
      omega
    | false =>
      obtain ⟨below, rfl, inLeft, inRight⟩ := balanced
      have leftBounds := leftIh inLeft
      have rightBounds := rightIh inRight
      have leftColour := left.isRed.toNat_le
      have rightColour := right.isRed.toNat_le
      simp only [isRed, Bool.toNat_false, Nat.pow_succ]
      omega

theorem height_le_length (t : Shape Addr) : t.height ≤ t.inorder.length := by
  induction t with
  | nil => exact Nat.le_refl _
  | node red left addr right leftIh rightIh =>
    simp only [height, inorder, List.length_append, List.length_cons]
    omega

theorem RedBlack.height_le (redBlack : t.RedBlack) :
    t.height ≤ 2 * Nat.log2 (t.inorder.length + 1) := by
  obtain ⟨black, n, balanced⟩ := redBlack
  obtain ⟨isHigh, isFull⟩ := balanced.bounds
  have atMost := (Nat.le_log2 (Nat.add_one_ne_zero _)).mpr isFull
  rw [black, Bool.toNat_false] at isHigh
  omega

end Lib.Shape

namespace Adinkra

open Lib

variable {Name Key Other Mapped : Type} [DecidableEq Name]

/-- More fuel than the height changes no descent. -/
theorem descents_eq {c : Container Key Other Mapped} {t : Shape Nat} {parent : Option Nat}
    {fuel other : Nat} (represented : Represents c.links.node t parent)
    (enough : t.height < fuel) (alsoEnough : t.height < other) (key : KeyValue Key Other) :
    (∀ place, c.descend key fuel t.root place = c.descend key other t.root place) ∧
      c.findNode key fuel t.root = c.findNode key other t.root ∧
      ∀ stop result, c.boundNode stop fuel t.root result = c.boundNode stop other t.root result := by
  induction t generalizing parent fuel other with
  | nil =>
    obtain _ | fuel := fuel
    · omega
    obtain _ | other := other
    · omega
    exact ⟨fun _ => rfl, rfl, fun _ _ => rfl⟩
  | node red left addr right leftIh rightIh =>
    obtain ⟨here, inLeft, inRight⟩ := represented
    obtain _ | fuel := fuel
    · omega
    obtain _ | other := other
    · omega
    simp only [Shape.height] at enough alsoEnough
    obtain ⟨leftDescend, leftFind, leftBound⟩ :=
      @leftIh _ fuel other inLeft (by omega) (by omega)
    obtain ⟨rightDescend, rightFind, rightBound⟩ :=
      @rightIh _ fuel other inRight (by omega) (by omega)
    simp only [Container.descend, Container.findNode, Container.boundNode, Shape.root_node, here,
      leftDescend, leftFind, leftBound, rightDescend, rightFind, rightBound, implies_true, and_self]

/-- Whatever is looked for, a descent comes to its end within the height. -/
theorem descents_end {c : Container Key Other Mapped} {t : Shape Nat} {parent : Option Nat}
    {elements : List (Element Key Mapped)} {fuel : Nat}
    (represented : Represents c.links.node t parent) (reads : Reads c t elements)
    (enough : t.height < fuel) (key : KeyValue Key Other) :
    (∀ place, (c.descend key fuel t.root place).isSome) ∧
      (c.findNode key fuel t.root).isSome ∧
      ∀ stop result, (c.boundNode stop fuel t.root result).isSome := by
  induction t generalizing parent elements fuel with
  | nil =>
    obtain _ | fuel := fuel
    · omega
    exact ⟨fun _ => rfl, rfl, fun _ _ => rfl⟩
  | node red left addr right leftIh rightIh =>
    obtain ⟨here, inLeft, inRight⟩ := represented
    obtain ⟨first, e, last, rfl, rfl, readsLeft, readsRight⟩ := reads.split
    have held := reads.keyOf (show e ∈ first ++ e :: last by simp)
    obtain _ | fuel := fuel
    · omega
    simp only [Shape.height] at enough
    obtain ⟨leftDescend, leftFind, leftBound⟩ :=
      @leftIh _ first fuel inLeft readsLeft (by omega)
    obtain ⟨rightDescend, rightFind, rightBound⟩ :=
      @rightIh _ last fuel inRight readsRight (by omega)
    simp only [Container.descend, Container.findNode, Container.boundNode, Shape.root_node, here,
      held, bind, Option.bind]
    refine ⟨fun place => ?_, ?_, fun stop result => ?_⟩
    · split
      · exact leftDescend _
      · split
        · exact rightDescend _
        · split
          · rfl
          · exact rightDescend _
    · split
      · exact leftFind
      · split
        · exact rightFind
        · rfl
    · split
      · exact leftBound _ _
      · exact rightBound _ _

/-- The searches for a key, or for a value of another type, and the way to the place of a
new node end within the fuel. -/
structure EndsWithin (c : Container Key Other Mapped) (key : KeyValue Key Other) (fuel : Nat) :
    Prop where
  descendEnds : (c.descend key fuel c.links.root none).isSome
  descend : c.descend key c.fuel c.links.root none = c.descend key fuel c.links.root none
  findEnds : (c.findNode key fuel c.links.root).isSome
  find : c.find key = c.findNode key fuel c.links.root
  lowerBoundEnds :
    (c.boundNode (fun current => !c.comparator.greater key current) fuel c.links.root none).isSome
  lowerBound : c.lowerBound key =
    c.boundNode (fun current => !c.comparator.greater key current) fuel c.links.root none
  upperBoundEnds :
    (c.boundNode (fun current => c.comparator.less key current) fuel c.links.root none).isSome
  upperBound : c.upperBound key =
    c.boundNode (fun current => c.comparator.less key current) fuel c.links.root none

theorem Keeps.endsWithin {c : Container Key Other Mapped} {r : Reference Key Other Mapped}
    {fresh fuel : Nat} (keeps : Keeps c r fresh) (key : KeyValue Key Other)
    (enough : 2 * Nat.log2 (c.size + 1) < fuel) : EndsWithin c key fuel := by
  obtain ⟨t, holds, redBlack, reads⟩ := keeps.tree
  have isHigh := redBlack.height_le
  have atMost := t.height_le_length
  rw [reads.length, ← keeps.size] at isHigh atMost
  have short := Nat.lt_of_le_of_lt isHigh enough
  obtain ⟨descend, find, bound⟩ := descents_eq holds.represented
    (show t.height < c.fuel from Nat.lt_succ_of_le atMost) short key
  obtain ⟨descendEnds, findEnds, boundEnds⟩ := descents_end holds.represented reads short key
  rw [← holds.rooted] at descend find bound descendEnds findEnds boundEnds
  exact ⟨descendEnds none, descend none, findEnds, find, boundEnds _ none, bound _ none,
    boundEnds _ none, bound _ none⟩

end Adinkra

end Aburi
