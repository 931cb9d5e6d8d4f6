import Aburi.Adinkra.Map
import Mathlib.Data.List.Pairwise

/-!
# Sorted association lists

What a container is for: a list of elements, sorted by key.  An element carries the
node that holds it, so that an iterator names an element of the list.
-/

namespace Aburi.Adinkra

open Container (Iterator)

variable {Name Key Other Mapped : Type}

/-- A strict weak ordering. -/
structure StrictWeak (compare : Key → Key → Bool) : Prop where
  irrefl : ∀ a, compare a a = false
  trans : ∀ a b c, compare a b = true → compare b c = true → compare a c = true
  incomparable : ∀ a b c, compare a b = false → compare b a = false →
    compare b c = false → compare c b = false → compare a c = false ∧ compare c a = false

namespace StrictWeak

variable {compare : Key → Key → Bool} (order : StrictWeak compare)
include order

theorem asymm {a b : Key} (less : compare a b = true) : compare b a = false := by
  cases greater : compare b a with
  | false => rfl
  | true =>
    have loop := order.trans a b a less greater
    rw [order.irrefl a] at loop
    exact absurd loop (by simp)

/-- What is less than one of two keys is less than any key in between. -/
theorem split {a b c : Key} (less : compare a c = true) :
    compare a b = true ∨ compare b c = true := by
  by_contra neither
  simp only [not_or, Bool.not_eq_true] at neither
  obtain ⟨notFirst, notSecond⟩ := neither
  have notBack : compare b a = false := by
    cases back : compare b a with
    | false => rfl
    | true => rw [order.trans b a c back less] at notSecond; exact absurd notSecond (by simp)
  have notBack' : compare c b = false := by
    cases back : compare c b with
    | false => rfl
    | true => rw [order.trans a c b less back] at notFirst; exact absurd notFirst (by simp)
  have := (order.incomparable a b c notFirst notBack notSecond notBack').1
  rw [less] at this
  exact absurd this (by simp)

theorem less_of_less_of_not_less {a b c : Key} (less : compare a b = true)
    (notLess : compare c b = false) : compare a c = true := by
  rcases @split _ _ order a c b less with first | second
  · exact first
  · rw [notLess] at second
    exact absurd second (by simp)

theorem less_of_not_less_of_less {a b c : Key} (notLess : compare b a = false)
    (less : compare b c = true) : compare a c = true := by
  rcases @split _ _ order b a c less with first | second
  · rw [notLess] at first
    exact absurd first (by simp)
  · exact second

theorem not_less_trans {a b c : Key} (first : compare b a = false)
    (second : compare c b = false) : compare c a = false := by
  cases less : compare c a with
  | false => rfl
  | true =>
    rcases @split _ _ order c b a less with low | high
    · rw [second] at low
      exact absurd low (by simp)
    · rw [first] at high
      exact absurd high (by simp)

end StrictWeak

structure Element (Key Mapped : Type) where
  node : Nat
  key : Key
  mapped : Mapped

structure Reference (Key Other Mapped : Type) where
  elements : List (Element Key Mapped)
  comparator : Comparator Key Other
  allowDuplicates : Bool

namespace Reference

variable (r : Reference Key Other Mapped)

abbrev compare : Key → Key → Bool := r.comparator.keys

def equivalent (a b : Key) : Bool :=
  !r.compare a b && !r.compare b a

/-- Sorted by key; the keys are unique unless duplicates are allowed. -/
def Sorted : Prop :=
  r.elements.Pairwise fun a b =>
    if r.allowDuplicates then r.compare b.key a.key = false else r.compare a.key b.key = true

/-- An argument compares with the elements as the key does. -/
structure ComparesAs (argument : KeyValue Key Other) (key : Key) : Prop where
  less : ∀ e ∈ r.elements, r.comparator.less argument e.key = r.compare key e.key
  greater : ∀ e ∈ r.elements, r.comparator.greater argument e.key = r.compare e.key key

/-- An insertion compares its argument as the key that is constructed from it, with an
ordering.  Where duplicates are allowed, it does not matter which keys are less. -/
structure Takes [ContainerTypes Key Other] (argument : KeyValue Key Other) : Prop where
  order : StrictWeak r.compare
  less : ∀ e ∈ r.elements,
    r.comparator.less argument e.key = r.compare argument.construct e.key
  greater : r.allowDuplicates = false → ∀ e ∈ r.elements,
    r.comparator.greater argument e.key = r.compare e.key argument.construct

/-- The new element comes after every element whose key is not greater. -/
def insertNew (fresh : Nat) (key : Key) (mapped : Mapped) : Reference Key Other Mapped :=
  { r with
    elements := r.elements.takeWhile (fun e => !r.compare key e.key) ++
      ⟨fresh, key, mapped⟩ :: r.elements.dropWhile (fun e => !r.compare key e.key) }

/-- The element that keeps a new one out. -/
def occupant (key : Key) : Option (Element Key Mapped) :=
  if r.allowDuplicates then none else r.elements.find? fun e => r.equivalent e.key key

/-- Insertion; where duplicates are not allowed, the first element with a key stays. -/
def insert (fresh : Nat) (key : Key) (mapped : Mapped) : Reference Key Other Mapped × Nat × Bool :=
  match r.occupant key with
  | some e => (r, e.node, false)
  | none => (r.insertNew fresh key mapped, fresh, true)

def assign (node : Nat) (mapped : Mapped) : Reference Key Other Mapped :=
  { r with
    elements := r.elements.map fun e => if e.node = node then { e with mapped := mapped } else e }

def insertOrAssign (fresh : Nat) (key : Key) (mapped : Mapped) :
    Reference Key Other Mapped × Nat × Bool :=
  match r.occupant key with
  | some e => (r.assign e.node mapped, e.node, false)
  | none => (r.insertNew fresh key mapped, fresh, true)

/-- The elements from an iterator on. -/
def elementsFrom (position : Option Nat) : List (Element Key Mapped) :=
  r.elements.dropWhile fun e => decide (some e.node ≠ position)

def elementsBefore (position : Option Nat) : List (Element Key Mapped) :=
  r.elements.takeWhile fun e => decide (some e.node ≠ position)

/-- The range from `first` up to `last` is taken out. -/
def eraseRange (first last : Option Nat) : Reference Key Other Mapped :=
  { r with
    elements := r.elementsBefore first ++
      (r.elementsFrom first).dropWhile fun e => decide (some e.node ≠ last) }

/-- The element after the one at an iterator. -/
def following (position : Option Nat) : Option Nat :=
  (r.elementsFrom position).tail.head?.map Element.node

def eraseKey (key : Key) : Reference Key Other Mapped :=
  { r with elements := r.elements.filter fun e => !r.equivalent e.key key }

/-- The copy of a list has new nodes and the same keys and values in the same order. -/
def relabel : Nat → List (Element Key Mapped) → List (Element Key Mapped)
  | _, [] => []
  | fresh, e :: rest => ⟨fresh, e.key, e.mapped⟩ :: relabel (fresh + 1) rest

/-- The elements of a list are inserted one after another; those that are kept out
stay in the list. -/
def mergeElements (target : Reference Key Other Mapped) (fresh : Nat) :
    List (Element Key Mapped) → Reference Key Other Mapped × List (Element Key Mapped) × Nat
  | [] => (target, [], fresh)
  | e :: rest =>
    match target.occupant e.key with
    | some _ =>
      let (target, kept, fresh) := mergeElements target fresh rest
      (target, e :: kept, fresh)
    | none => mergeElements (target.insertNew fresh e.key e.mapped) (fresh + 1) rest

theorem comparesAs_key (key : Key) : r.ComparesAs (.key key) key :=
  ⟨fun _ _ => rfl, fun _ _ => rfl⟩

theorem takes_key [ContainerTypes Key Other] (order : StrictWeak r.compare) (key : Key) :
    r.Takes (.key key) :=
  ⟨order, fun _ _ => rfl, fun _ _ _ => rfl⟩

end Reference

structure ReferenceWorld (Name Key Other Mapped : Type) where
  lists : Name → Reference Key Other Mapped
  next : Nat

namespace ReferenceWorld

variable [DecidableEq Name]

def setList (w : ReferenceWorld Name Key Other Mapped) (this : Name) (r : Reference Key Other Mapped) :
    ReferenceWorld Name Key Other Mapped :=
  { w with lists := Function.update w.lists this r }

def placed (w : ReferenceWorld Name Key Other Mapped) (this : Name)
    (result : Reference Key Other Mapped × Nat × Bool) :
    ReferenceWorld Name Key Other Mapped × Answer Name :=
  let (r, node, inserted) := result
  ({ w.setList this r with next := if inserted then w.next + 1 else w.next },
    .inserted ⟨this, some node⟩ inserted)

/-- What a call means for the lists. -/
def call [ContainerTypes Key Other] (w : ReferenceWorld Name Key Other Mapped) :
    Call Name Key Other Mapped → ReferenceWorld Name Key Other Mapped × Answer Name
  | .insert this value => w.placed this ((w.lists this).insert w.next value.1.construct value.2)
  | .emplace this key mapped | .tryEmplace this key mapped =>
    w.placed this ((w.lists this).insert w.next key.construct mapped)
  | .insertOrAssign this key mapped =>
    w.placed this ((w.lists this).insertOrAssign w.next key.construct mapped)
  | .erase this position =>
    let following := (w.lists this).following position.node
    (w.setList this ((w.lists this).eraseRange position.node following),
      .following ⟨this, following⟩)
  | .eraseRange this first last =>
    (w.setList this ((w.lists this).eraseRange first.node last.node), .following ⟨this, last.node⟩)
  | .eraseKey this key =>
    (w.setList this ((w.lists this).eraseKey key),
      .removed ((w.lists this).elements.countP fun e => (w.lists this).equivalent e.key key))
  | .merge this source =>
    if this = source then
      (w, .nothing)
    else
      let (target, kept, fresh) :=
        (w.lists this).mergeElements w.next (w.lists source).elements
      ({ (w.setList this target).setList source
          { w.lists source with elements := kept } with next := fresh }, .nothing)
  | .copy this other =>
    if this = other then
      (w, .nothing)
    else
      ({ w.setList this { w.lists other with
          elements := Reference.relabel w.next (w.lists other).elements } with
          next := w.next + (w.lists other).elements.length }, .nothing)
  | .move this other =>
    if this = other then
      (w, .nothing)
    else
      ((w.setList this (w.lists other)).setList other
        { w.lists other with
          elements := []
          comparator := ContainerTypes.movedFrom (w.lists other).comparator }, .nothing)
  | .swap this other =>
    ((w.setList this (w.lists other)).setList other (w.lists this), .nothing)
  | .clear this => (w.setList this { w.lists this with elements := [] }, .nothing)

end ReferenceWorld

end Aburi.Adinkra
