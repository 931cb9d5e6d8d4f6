import Aburi.Adinkra.MapReference
import Aburi.Adinkra.TreeBalanced

/-!
# Searching the tree of a container

The descents of the containers, on a tree whose nodes hold the elements of a sorted
list.
-/

namespace Aburi.Adinkra

open Lib Option
open List hiding after

variable {Key Other Mapped : Type}

/-- The nodes of the shape hold the elements of the list, in its order. -/
structure Reads (c : Container Key Other Mapped) (t : Shape Nat)
    (elements : List (Element Key Mapped)) : Prop where
  nodes : t.inorder = elements.map Element.node
  values : ∀ e ∈ elements, c.value e.node = some (e.key, e.mapped)

namespace Reads

variable {c : Container Key Other Mapped} {elements : List (Element Key Mapped)}

theorem keyOf {t : Shape Nat} (reads : Reads c t elements) {e : Element Key Mapped}
    (member : e ∈ elements) : c.keyOf e.node = some e.key := by
  rw [Container.keyOf, reads.values e member]
  rfl

theorem nil (reads : Reads c .nil elements) : elements = [] := by
  simpa [Shape.inorder] using reads.nodes.symm

theorem length {t : Shape Nat} (reads : Reads c t elements) :
    t.inorder.length = elements.length := by
  rw [reads.nodes, length_map]

theorem split {red : Bool} {left right : Shape Nat} {addr : Nat}
    (reads : Reads c (.node red left addr right) elements) :
    ∃ first e last, elements = first ++ e :: last ∧ e.node = addr ∧
      Reads c left first ∧ Reads c right last := by
  obtain ⟨nodes, values⟩ := reads
  rw [Shape.inorder, eq_comm, map_eq_append_iff] at nodes
  obtain ⟨first, rest, rfl, firstNodes, restNodes⟩ := nodes
  rw [map_eq_cons_iff] at restNodes
  obtain ⟨e, last, rfl, node, lastNodes⟩ := restNodes
  refine ⟨first, e, last, rfl, node, ⟨firstNodes.symm, ?_⟩, ⟨lastNodes.symm, ?_⟩⟩
  · exact fun e' member => values e' (by simp [member])
  · exact fun e' member => values e' (by simp [member])

end Reads

variable {c : Container Key Other Mapped}

/-- The first element at which `stop` holds, where it holds of every later one too. -/
theorem boundNode_eq {t : Shape Nat} {parent : Option Nat}
    {elements : List (Element Key Mapped)} {stop : Key → Bool} {fuel : Nat}
    {result : Option Nat} (represented : Represents c.links.node t parent)
    (reads : Reads c t elements)
    (monotone : elements.Pairwise fun a b => stop a.key = true → stop b.key = true)
    (enough : elements.length < fuel) :
    c.boundNode stop fuel t.root result =
      some (((elements.find? fun e => stop e.key).map Element.node).or result) := by
  induction t generalizing parent elements fuel result with
  | nil =>
    have empty := reads.nil
    subst empty
    obtain _ | fuel := fuel
    · omega
    simp [Container.boundNode]
  | node red left addr right leftIh rightIh =>
    obtain _ | fuel := fuel
    · omega
    obtain ⟨here, inLeft, inRight⟩ := represented
    obtain ⟨first, e, last, rfl, rfl, readsLeft, readsRight⟩ := reads.split
    have held := reads.keyOf (show e ∈ first ++ e :: last by simp)
    rw [pairwise_append, pairwise_cons] at monotone
    obtain ⟨firstMonotone, ⟨-, lastMonotone⟩, across⟩ := monotone
    simp only [length_append, length_cons] at enough
    simp only [Shape.root_node, Container.boundNode, held, here, bind_eq_bind,
      bind_some, find?_append]
    cases stopped : stop e.key with
    | true =>
      have here : ((e :: last).find? fun e => stop e.key) = some e :=
        find?_cons_of_pos (by simpa using stopped)
      rw [if_pos rfl, leftIh inLeft readsLeft firstMonotone
          (show first.length < fuel by omega), here]
      cases first.find? fun e => stop e.key with
      | none | some e' => rfl
    | false =>
      have none : (first.find? fun e => stop e.key) = none := by
        rw [find?_eq_none]
        intro e' member holds
        have := across e' member e (by simp) holds
        rw [stopped] at this
        exact absurd this (by simp)
      rw [if_neg (by simp), rightIh inRight readsRight lastMonotone
          (show last.length < fuel by omega), none, find?_cons_of_neg (by simp [stopped])]
      rfl

/-- Sorted, with or without equivalent keys next to one another. -/
theorem Reference.Sorted.weak {r : Reference Key Other Mapped} (order : StrictWeak r.compare)
    (sorted : r.Sorted) :
    r.elements.Pairwise fun a b => r.compare b.key a.key = false := by
  refine List.Pairwise.imp ?_ sorted
  intro a b ordered
  split at ordered
  · exact ordered
  · exact order.asymm ordered

section Ordered

variable {compare : Key → Key → Bool} (order : StrictWeak compare)
include order

theorem findNode_eq {t : Shape Nat} {parent : Option Nat}
    {elements : List (Element Key Mapped)} {key : Key} {fuel : Nat}
    (same : c.comparator.keys = compare) (represented : Represents c.links.node t parent)
    (reads : Reads c t elements)
    (sorted : elements.Pairwise fun a b => compare b.key a.key = false)
    (enough : elements.length < fuel) :
    (c.findNode (.key key) fuel t.root = some none ∧
        ∀ e ∈ elements, compare key e.key = true ∨ compare e.key key = true) ∨
      ∃ e ∈ elements, c.findNode (.key key) fuel t.root = some (some e.node) ∧
        compare key e.key = false ∧ compare e.key key = false := by
  induction t generalizing parent elements fuel with
  | nil =>
    have empty := reads.nil
    subst empty
    obtain _ | fuel := fuel
    · omega
    exact .inl ⟨rfl, by simp⟩
  | node red left addr right leftIh rightIh =>
    obtain _ | fuel := fuel
    · omega
    obtain ⟨here, inLeft, inRight⟩ := represented
    obtain ⟨first, e, last, rfl, rfl, readsLeft, readsRight⟩ := reads.split
    have held := reads.keyOf (show e ∈ first ++ e :: last by simp)
    rw [pairwise_append, pairwise_cons] at sorted
    obtain ⟨firstSorted, ⟨afterE, lastSorted⟩, across⟩ := sorted
    simp only [length_append, length_cons] at enough
    simp only [Shape.root_node, Container.findNode, held, here, Comparator.less,
      Comparator.greater, same, bind_eq_bind, bind_some]
    cases less : compare key e.key with
    | true =>
      rw [if_pos rfl]
      rcases leftIh inLeft readsLeft firstSorted (show first.length < fuel by omega)
        with ⟨result, noneFirst⟩ | ⟨e', member, found⟩
      · refine .inl ⟨result, fun e' member => ?_⟩
        simp only [mem_append, mem_cons] at member
        rcases member with inFirst | rfl | inLast
        · exact noneFirst e' inFirst
        · exact .inl less
        · exact .inl (order.less_of_less_of_not_less less (afterE e' inLast))
      · exact .inr ⟨e', by simp [member], found⟩
    | false =>
      rw [if_neg (by simp)]
      cases greater : compare e.key key with
      | true =>
        rw [if_pos rfl]
        rcases rightIh inRight readsRight lastSorted
          (show last.length < fuel by omega) with ⟨result, noneLast⟩ | ⟨e', member, found⟩
        · refine .inl ⟨result, fun e' member => ?_⟩
          simp only [mem_append, mem_cons] at member
          rcases member with inFirst | rfl | inLast
          · exact .inr (order.less_of_not_less_of_less (across e' inFirst e (by simp)) greater)
          · exact .inr greater
          · exact noneLast e' inLast
        · exact .inr ⟨e', by simp [member], found⟩
      | false =>
        exact .inr ⟨e, by simp, by rw [if_neg (by simp)], less, greater⟩

/-- Where the descent of an insertion ends: at an element that keeps the key out, or at
a null link between the elements that are not greater and those that are. -/
def LandsAt (allowDuplicates : Bool) (compare : Key → Key → Bool) (key : Key)
    (path : List (Frame Nat)) (t : Shape Nat) (elements : List (Element Key Mapped))
    (landing : Option Container.Landing) : Prop :=
  (∃ e ∈ elements, landing = some (.found e.node) ∧
    allowDuplicates = false ∧ compare key e.key = false ∧ compare e.key key = false) ∨
  (∃ path' first last, landing = some (.free (placeOf path')) ∧
    plug path' .nil = plug path t ∧
    elements = first ++ last ∧ before path' = before path ++ first.map Element.node ∧
    after path' = last.map Element.node ++ after path ∧
    (∀ e ∈ first, compare key e.key = false) ∧ (∀ e ∈ last, compare key e.key = true) ∧
    (allowDuplicates = false → ∀ e ∈ first, compare e.key key = true))

section

variable {allowDuplicates red : Bool} {key : Key} {path : List (Frame Nat)}
  {left right : Shape Nat} {first last : List (Element Key Mapped)} {e : Element Key Mapped}
  {landing : Option Container.Landing}
  (sorted : (first ++ e :: last).Pairwise fun a b => compare b.key a.key = false)
include sorted

theorem landsAt_left (nodes : right.inorder = last.map Element.node)
    (less : compare key e.key = true)
    (lands : LandsAt allowDuplicates compare key (⟨.left, red, e.node, right⟩ :: path) left first
      landing) :
    LandsAt allowDuplicates compare key path (.node red left e.node right) (first ++ e :: last)
      landing := by
  rw [pairwise_append, pairwise_cons] at sorted
  obtain ⟨-, ⟨afterE, -⟩, -⟩ := sorted
  rcases lands with ⟨e', member, found⟩ |
    ⟨path', low, high, result, whole, rfl, beforeEq, afterEq, lows, highs, unique⟩
  · exact .inl ⟨e', by simp [member], found⟩
  · refine .inr ⟨path', low, high ++ e :: last, result, whole, by simp, ?_, ?_, lows, ?_,
      unique⟩
    · rw [beforeEq]
      simp [before, Frame.before]
    · rw [afterEq]
      simp [after, Frame.after, nodes]
    · intro e' member
      simp only [mem_append, mem_cons] at member
      rcases member with inHigh | rfl | inLast
      · exact highs e' inHigh
      · exact less
      · exact order.less_of_less_of_not_less less (afterE e' inLast)

/-- An equivalent key is passed on the right only where duplicates are allowed. -/
theorem landsAt_right (nodes : left.inorder = first.map Element.node)
    (notLess : compare key e.key = false)
    (strict : allowDuplicates = false → compare e.key key = true)
    (lands : LandsAt allowDuplicates compare key (⟨.right, red, e.node, left⟩ :: path) right last
      landing) :
    LandsAt allowDuplicates compare key path (.node red left e.node right) (first ++ e :: last)
      landing := by
  rw [pairwise_append, pairwise_cons] at sorted
  obtain ⟨-, -, across⟩ := sorted
  rcases lands with ⟨e', member, found⟩ |
    ⟨path', low, high, result, whole, rfl, beforeEq, afterEq, lows, highs, unique⟩
  · exact .inl ⟨e', by simp [member], found⟩
  · refine .inr ⟨path', first ++ e :: low, high, result, whole, by simp, ?_, ?_, ?_,
      highs, ?_⟩
    · rw [beforeEq]
      simp [before, Frame.before, nodes]
    · rw [afterEq]
      simp [after, Frame.after]
    · intro e' member
      simp only [mem_append, mem_cons] at member
      rcases member with inFirst | rfl | inLow
      · exact order.not_less_trans (across e' inFirst e (by simp)) notLess
      · exact notLess
      · exact lows e' inLow
    · intro unequal e' member
      simp only [mem_append, mem_cons] at member
      rcases member with inFirst | rfl | inLow
      · exact order.less_of_not_less_of_less (across e' inFirst e (by simp)) (strict unequal)
      · exact strict unequal
      · exact unique unequal e' inLow

end

theorem descend_eq {t : Shape Nat} {path : List (Frame Nat)}
    {elements : List (Element Key Mapped)} {key : Key} {fuel : Nat}
    (same : c.comparator.keys = compare)
    (represented : Represents c.links.node t (parentOf path))
    (reads : Reads c t elements)
    (sorted : elements.Pairwise fun a b => compare b.key a.key = false)
    (enough : elements.length < fuel) :
    LandsAt c.allowDuplicates compare key path t elements
      (c.descend (.key key) fuel t.root (placeOf path)) := by
  induction t generalizing path elements fuel with
  | nil =>
    have empty := reads.nil
    subst empty
    obtain _ | fuel := fuel
    · omega
    exact .inr ⟨path, [], [], rfl, rfl, rfl, by simp, by simp, by simp, by simp, by simp⟩
  | node red left addr right leftIh rightIh =>
    obtain _ | fuel := fuel
    · omega
    obtain ⟨here, inLeft, inRight⟩ := represented
    obtain ⟨first, e, last, rfl, rfl, readsLeft, readsRight⟩ := reads.split
    have held := reads.keyOf (show e ∈ first ++ e :: last by simp)
    obtain ⟨firstSorted, restSorted, -⟩ := pairwise_append.1 sorted
    have lastSorted := (pairwise_cons.1 restSorted).2
    simp only [length_append, length_cons] at enough
    simp only [Shape.root_node, Container.descend, held, here, Comparator.less, Comparator.greater,
      same, bind_eq_bind, bind_some]
    have goLeft := @leftIh (⟨.left, red, e.node, right⟩ :: path) first fuel
      inLeft readsLeft firstSorted (by omega)
    have goRight := @rightIh (⟨.right, red, e.node, left⟩ :: path) last fuel
      inRight readsRight lastSorted (by omega)
    cases less : compare key e.key with
    | true => exact landsAt_left order sorted readsRight.nodes less goLeft
    | false =>
      rw [if_neg (by simp)]
      cases greater : compare e.key key with
      | true => exact landsAt_right order sorted readsLeft.nodes less (fun _ => greater) goRight
      | false =>
        cases flag : c.allowDuplicates with
        | false => exact .inl ⟨e, by simp, by simp, rfl, less, greater⟩
        | true =>
          rw [flag] at goRight
          exact landsAt_right order sorted readsLeft.nodes less (by simp) goRight

end Ordered

variable {t : Shape Nat} {parent : Option Nat} {elements : List (Element Key Mapped)}
  {key other : KeyValue Key Other}

/-- The descents compare with the keys of the elements only, and the one to the place of a
new node asks whether an element is less only where duplicates are not allowed. -/
theorem descents_congr (represented : Represents c.links.node t parent)
    (reads : Reads c t elements)
    (less : ∀ e ∈ elements, c.comparator.less key e.key = c.comparator.less other e.key)
    (fuel : Nat) :
    ((c.allowDuplicates = false → ∀ e ∈ elements,
        c.comparator.greater key e.key = c.comparator.greater other e.key) →
      ∀ place, c.descend key fuel t.root place = c.descend other fuel t.root place) ∧
    ((∀ e ∈ elements, c.comparator.greater key e.key = c.comparator.greater other e.key) →
      c.findNode key fuel t.root = c.findNode other fuel t.root) := by
  induction t generalizing parent elements fuel with
  | nil => cases fuel <;> exact ⟨fun _ _ => rfl, fun _ => rfl⟩
  | node red left addr right leftIh rightIh =>
    obtain _ | fuel := fuel
    · exact ⟨fun _ _ => rfl, fun _ => rfl⟩
    obtain ⟨here, inLeft, inRight⟩ := represented
    obtain ⟨first, e, last, rfl, rfl, readsLeft, readsRight⟩ := reads.split
    have held := reads.keyOf (show e ∈ first ++ e :: last by simp)
    obtain ⟨leftDescend, leftFind⟩ := leftIh inLeft readsLeft
      (fun e' member => less e' (by simp [member])) fuel
    obtain ⟨rightDescend, rightFind⟩ := rightIh inRight readsRight
      (fun e' member => less e' (by simp [member])) fuel
    simp only [Shape.root_node, Container.descend, Container.findNode, held, here, bind_eq_bind,
      bind_some, less e (by simp)]
    constructor
    · intro greater place
      rw [leftDescend fun flag e' member => greater flag e' (by simp [member])]
      simp only [rightDescend fun flag e' member => greater flag e' (by simp [member])]
      cases flag : c.allowDuplicates with
      | false => simp only [greater flag e (by simp)]
      | true => simp
    · intro greater
      rw [leftFind fun e' member => greater e' (by simp [member]),
        rightFind fun e' member => greater e' (by simp [member]), greater e (by simp)]

end Aburi.Adinkra
