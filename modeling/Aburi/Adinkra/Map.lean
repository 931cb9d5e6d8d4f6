import Aburi.Adinkra.Tree

/-!
# The ordered containers

`adinkra/include/c++/v1/map`: `map`, and `multimap`, which is a `map` whose flag
`allow_duplicates_` is set.  The nodes of a container are memory of its own; `next` is
the address that `new` gives out next, and a deleted node has no value.  Every loop has
the number of elements and one more as its fuel.

Insertions and lookups take keys and values of another type.  The descents compare such
a value as it is; the key is constructed from it when its node is.
-/

namespace Aburi.Adinkra

open Lib

variable {Name Key Other Mapped : Type}

/-- A comparator object: its calls with two keys, and with a value of another type on
either side. -/
structure Comparator (Key Other : Type) where
  keys : Key → Key → Bool
  otherKey : Other → Key → Bool
  keyOther : Key → Other → Bool

/-- What the argument types bring along: the key that is constructed from a value of
another type, and what a comparator is after it was moved from. -/
class ContainerTypes (Key Other : Type) where
  construct : Other → Key
  movedFrom : Comparator Key Other → Comparator Key Other

/-- What insertions and lookups take for a key. -/
inductive KeyValue (Key Other : Type) where
  | key (key : Key)
  | other (value : Other)

def KeyValue.construct [ContainerTypes Key Other] : KeyValue Key Other → Key
  | .key same => same
  | .other value => ContainerTypes.construct value

namespace Comparator

variable (compare : Comparator Key Other)

def less : KeyValue Key Other → Key → Bool
  | .key key, current => compare.keys key current
  | .other value, current => compare.otherKey value current

def greater : KeyValue Key Other → Key → Bool
  | .key key, current => compare.keys current key
  | .other value, current => compare.keyOther current value

end Comparator

structure Container (Key Other Mapped : Type) where
  links : Links Nat
  value : Nat → Option (Key × Mapped)
  size : Nat
  comparator : Comparator Key Other
  allowDuplicates : Bool

namespace Container

/-- The constructors of an empty container. -/
def empty (comparator : Comparator Key Other) (allowDuplicates : Bool) :
    Container Key Other Mapped where
  links := ⟨none, fun _ => ⟨none, none, none, false⟩⟩
  value _ := none
  size := 0
  comparator := comparator
  allowDuplicates := allowDuplicates

variable (c : Container Key Other Mapped)

def keyOf (node : Nat) : Option Key :=
  (c.value node).map Prod.fst

def setValue (node : Nat) (value : Option (Key × Mapped)) : Container Key Other Mapped :=
  { c with value := Function.update c.value node value }

def fuel : Nat :=
  c.size + 1

def begin : Option (Option Nat) :=
  minimum c.fuel c.links c.links.root

/-- What a loop from `current` on reads. -/
def readFrom : Nat → Option Nat → Option (List (Key × Mapped))
  | 0, _ => none
  | _ + 1, none => some []
  | fuel + 1, some node => do
      let value ← c.value node
      let following ← next c.fuel c.links node
      let rest ← readFrom fuel following
      some (value :: rest)

/-- The forward iteration, from `begin` until `end`. -/
def iterate : Option (List (Key × Mapped)) := do
  let first ← c.begin
  c.readFrom c.fuel first

/-- Where a descent ends: at a null link, or at a node with an equivalent key. -/
inductive Landing where
  | free (place : Option (Nat × Side))
  | found (node : Nat)

/-- The loop of `emplace` and of `try_emplace`; `link` is what `*link` holds, and
`place` says where it is. -/
def descend (key : KeyValue Key Other) :
    Nat → Option Nat → Option (Nat × Side) → Option Landing
  | 0, _, _ => none
  | _ + 1, none, place => some (.free place)
  | fuel + 1, some node, _ => do
      let current ← c.keyOf node
      if c.comparator.less key current then
        descend key fuel (c.links.node node).left (some (node, .left))
      else if c.comparator.greater key current then
        descend key fuel (c.links.node node).right (some (node, .right))
      else if !c.allowDuplicates then
        some (.found node)
      else
        descend key fuel (c.links.node node).right (some (node, .right))

/-- A constructed node is hung at a null link. -/
def linkNode (place : Option (Nat × Side)) (node : Nat) : Option (Container Key Other Mapped) := do
  let links ← insertRebalance c.fuel (attach c.links place node) node
  some { c with links := links, size := c.size + 1 }

section Insertion

variable [ContainerTypes Key Other]

/-- The result is the container, the node that the returned iterator points to, and
whether it was inserted. -/
def tryEmplace (fresh : Nat) (key : KeyValue Key Other) (mapped : Mapped) :
    Option (Container Key Other Mapped × Nat × Bool) := do
  match ← c.descend key c.fuel c.links.root none with
  | .found node => some (c, node, false)
  | .free place =>
    let c := c.setValue fresh (some (key.construct, mapped))
    let c ← c.linkNode place fresh
    some (c, fresh, true)

/-- `emplace` constructs its candidate before it looks for the place. -/
def emplace (fresh : Nat) (key : KeyValue Key Other) (mapped : Mapped) :
    Option (Container Key Other Mapped × Nat × Bool) := do
  let c := c.setValue fresh (some (key.construct, mapped))
  let candidateKey ← c.keyOf fresh
  match ← c.descend (.key candidateKey) c.fuel c.links.root none with
  | .found node => some (c.setValue fresh none, node, false)
  | .free place =>
    let c ← c.linkNode place fresh
    some (c, fresh, true)

def insert (fresh : Nat) (value : KeyValue Key Other × Mapped) :
    Option (Container Key Other Mapped × Nat × Bool) :=
  c.tryEmplace fresh value.1 value.2

def insertOrAssign (fresh : Nat) (key : KeyValue Key Other) (mapped : Mapped) :
    Option (Container Key Other Mapped × Nat × Bool) := do
  let (c, node, inserted) ← c.tryEmplace fresh key mapped
  if !inserted then
    let (held, _) ← c.value node
    some (c.setValue node (some (held, mapped)), node, inserted)
  else
    some (c, node, inserted)

end Insertion

def findNode (key : KeyValue Key Other) : Nat → Option Nat → Option (Option Nat)
  | 0, _ => none
  | _ + 1, none => some none
  | fuel + 1, some node => do
      let current ← c.keyOf node
      if c.comparator.less key current then
        findNode key fuel (c.links.node node).left
      else if c.comparator.greater key current then
        findNode key fuel (c.links.node node).right
      else
        some (some node)

/-- The loop of `lower_bound_node` and `upper_bound_node`: the last node at which it
went to the left, which it does where `stop` holds of the key. -/
def boundNode (stop : Key → Bool) : Nat → Option Nat → Option Nat → Option (Option Nat)
  | 0, _, _ => none
  | _ + 1, none, result => some result
  | fuel + 1, some node, result => do
      let current ← c.keyOf node
      if stop current then
        boundNode stop fuel (c.links.node node).left (some node)
      else
        boundNode stop fuel (c.links.node node).right result

def find (key : KeyValue Key Other) : Option (Option Nat) :=
  c.findNode key c.fuel c.links.root

def lowerBound (key : KeyValue Key Other) : Option (Option Nat) :=
  c.boundNode (fun current => !c.comparator.greater key current) c.fuel c.links.root none

def upperBound (key : KeyValue Key Other) : Option (Option Nat) :=
  c.boundNode (fun current => c.comparator.less key current) c.fuel c.links.root none

def equalRange (key : KeyValue Key Other) : Option (Option Nat × Option Nat) := do
  let lower ← c.lowerBound key
  let upper ← c.upperBound key
  some (lower, upper)

def contains (key : KeyValue Key Other) : Option Bool := do
  let found ← c.find key
  some (found != none)

/-- The loop of `multimap::count`. -/
def countRange : Nat → Option Nat → Option Nat → Nat → Option Nat
  | 0, _, _, _ => none
  | fuel + 1, first, last, result =>
    if first ≠ last then do
      let node ← first
      let following ← next c.fuel c.links node
      countRange fuel following last (result + 1)
    else
      some result

/-- `map::count` and `multimap::count`. -/
def count (key : KeyValue Key Other) : Option Nat := do
  if c.allowDuplicates then
    let (lower, upper) ← c.equalRange key
    c.countRange c.fuel lower upper 0
  else
    let found ← c.find key
    some (if found = none then 0 else 1)

/-- `erase` of an iterator: the container and the node after the erased one. -/
def erase (node : Nat) : Option (Container Key Other Mapped × Option Nat) := do
  let following ← next c.fuel c.links node
  let links ← eraseRebalance c.fuel c.links node
  let c := { c with links := links }
  let c := c.setValue node none
  some ({ c with size := c.size - 1 }, following)

def destroySubtree : Nat → Container Key Other Mapped → Option Nat → Option (Container Key Other Mapped)
  | 0, _, _ => none
  | _ + 1, c, none => some c
  | fuel + 1, c, some node => do
      let c ← destroySubtree fuel c (c.links.node node).left
      let c ← destroySubtree fuel c (c.links.node node).right
      some (c.setValue node none)

def clear : Option (Container Key Other Mapped) := do
  let c ← destroySubtree c.fuel c c.links.root
  some { c with links := { c.links with root := none }, size := 0 }

/-- An iterator knows the container that made it. -/
structure Iterator (Name : Type) where
  owner : Name
  node : Option Nat
deriving DecidableEq

section Iterators

variable [DecidableEq Name]

/-- The loop of `erase` of a range in the container `this`. -/
def eraseRangeLoop (this : Name) :
    Nat → Container Key Other Mapped → Iterator Name → Iterator Name → Option (Container Key Other Mapped)
  | 0, _, _, _ => none
  | fuel + 1, c, first, last =>
    if first ≠ last then do
      let node ← first.node
      let (c, following) ← c.erase node
      eraseRangeLoop this fuel c ⟨this, following⟩ last
    else
      some c

def eraseRange (this : Name) (first last : Iterator Name) :
    Option (Container Key Other Mapped × Iterator Name) := do
  let c ← eraseRangeLoop this c.fuel c first last
  some (c, ⟨this, last.node⟩)

/-- The loop of `multimap::erase` of a key. -/
def eraseEqualLoop :
    Nat → Container Key Other Mapped → Option Nat → Option Nat → Nat → Option (Container Key Other Mapped × Nat)
  | 0, _, _, _, _ => none
  | fuel + 1, c, first, last, removed =>
    if first ≠ last then do
      let node ← first
      let (c, following) ← c.erase node
      eraseEqualLoop fuel c following last (removed + 1)
    else
      some (c, removed)

/-- `map::erase` and `multimap::erase` of a key, and the number of erased elements. -/
def eraseKey (key : Key) : Option (Container Key Other Mapped × Nat) := do
  if c.allowDuplicates then
    let (lower, upper) ← c.equalRange (.key key)
    eraseEqualLoop c.fuel c lower upper 0
  else
    match ← c.find (.key key) with
    | none => some (c, 0)
    | some node => do
        let (c, _) ← c.erase node
        some (c, 1)

end Iterators

section TwoContainers

variable [ContainerTypes Key Other]

/-- `insert` of the range from `current` on of another container; the result is the
container and the next free address. -/
def insertRange (source : Container Key Other Mapped) :
    Nat → Container Key Other Mapped → Nat → Option Nat → Option (Container Key Other Mapped × Nat)
  | 0, _, _, _ => none
  | _ + 1, c, fresh, none => some (c, fresh)
  | fuel + 1, c, fresh, some node => do
      let value ← source.value node
      let (c, _, inserted) ← c.insert fresh (.key value.1, value.2)
      let following ← next source.fuel source.links node
      insertRange source fuel c (if inserted then fresh + 1 else fresh) following

/-- The copy constructor. -/
def copyOf (source : Container Key Other Mapped) (fresh : Nat) :
    Option (Container Key Other Mapped × Nat) := do
  let first ← source.begin
  insertRange source source.fuel (empty source.comparator source.allowDuplicates) fresh first

/-- What a container is after it was moved from. -/
def movedFrom : Container Key Other Mapped :=
  { c with
    links := { c.links with root := none }
    size := 0
    comparator := ContainerTypes.movedFrom c.comparator }

/-- The loop of both `map::merge`: the target, the source and the next free address. -/
def mapMergeLoop :
    Nat → Container Key Other Mapped → Container Key Other Mapped → Nat → Option Nat →
      Option (Container Key Other Mapped × Container Key Other Mapped × Nat)
  | 0, _, _, _, _ => none
  | _ + 1, c, source, fresh, none => some (c, source, fresh)
  | fuel + 1, c, source, fresh, some node => do
      let value ← source.value node
      let (c, _, inserted) ← c.insert fresh (.key value.1, value.2)
      if inserted then
        let (source, following) ← source.erase node
        mapMergeLoop fuel c source (fresh + 1) following
      else
        let following ← next source.fuel source.links node
        mapMergeLoop fuel c source fresh following

/-- The loop of both `multimap::merge`, which erases what it has inserted. -/
def multimapMergeLoop :
    Nat → Container Key Other Mapped → Container Key Other Mapped → Nat → Option Nat →
      Option (Container Key Other Mapped × Container Key Other Mapped × Nat)
  | 0, _, _, _, _ => none
  | _ + 1, c, source, fresh, none => some (c, source, fresh)
  | fuel + 1, c, source, fresh, some node => do
      let value ← source.value node
      let (c, _, inserted) ← c.insert fresh (.key value.1, value.2)
      let (source, following) ← source.erase node
      multimapMergeLoop fuel c source (if inserted then fresh + 1 else fresh) following

def merge (source : Container Key Other Mapped) (fresh : Nat) :
    Option (Container Key Other Mapped × Container Key Other Mapped × Nat) := do
  let first ← source.begin
  if c.allowDuplicates then
    multimapMergeLoop source.fuel c source fresh first
  else
    mapMergeLoop source.fuel c source fresh first

end TwoContainers

end Container

open Container (Iterator)

/-- The containers of a program, by the object they are, and the address that `new`
gives out next. -/
structure World (Name Key Other Mapped : Type) where
  containers : Name → Container Key Other Mapped
  next : Nat

inductive Call (Name Key Other Mapped : Type) where
  | insert (this : Name) (value : KeyValue Key Other × Mapped)
  | emplace (this : Name) (key : KeyValue Key Other) (mapped : Mapped)
  | tryEmplace (this : Name) (key : KeyValue Key Other) (mapped : Mapped)
  | insertOrAssign (this : Name) (key : KeyValue Key Other) (mapped : Mapped)
  | erase (this : Name) (position : Iterator Name)
  | eraseRange (this : Name) (first last : Iterator Name)
  | eraseKey (this : Name) (key : Key)
  | merge (this source : Name)
  | copy (this other : Name)
  | move (this other : Name)
  | swap (this other : Name)
  | clear (this : Name)

inductive Answer (Name : Type) where
  | inserted (position : Iterator Name) (isNew : Bool)
  | following (position : Iterator Name)
  | removed (count : Nat)
  | nothing
deriving DecidableEq

namespace World

variable [DecidableEq Name]

def setContainer (w : World Name Key Other Mapped) (this : Name) (c : Container Key Other Mapped) :
    World Name Key Other Mapped :=
  { w with containers := Function.update w.containers this c }

/-- What a call that inserts at most one node makes of the world. -/
def placed (w : World Name Key Other Mapped) (this : Name)
    (result : Container Key Other Mapped × Nat × Bool) :
    World Name Key Other Mapped × Answer Name :=
  let (c, node, inserted) := result
  ({ w.setContainer this c with next := if inserted then w.next + 1 else w.next },
    .inserted ⟨this, some node⟩ inserted)

def call [ContainerTypes Key Other] (w : World Name Key Other Mapped) :
    Call Name Key Other Mapped → Option (World Name Key Other Mapped × Answer Name)
  | .insert this value => do
      let result ← (w.containers this).insert w.next value
      some (w.placed this result)
  | .emplace this key mapped => do
      let result ← (w.containers this).emplace w.next key mapped
      some (w.placed this result)
  | .tryEmplace this key mapped => do
      let result ← (w.containers this).tryEmplace w.next key mapped
      some (w.placed this result)
  | .insertOrAssign this key mapped => do
      let result ← (w.containers this).insertOrAssign w.next key mapped
      some (w.placed this result)
  | .erase this position => do
      let node ← position.node
      let (c, following) ← (w.containers this).erase node
      some (w.setContainer this c, .following ⟨this, following⟩)
  | .eraseRange this first last => do
      let (c, following) ← (w.containers this).eraseRange this first last
      some (w.setContainer this c, .following following)
  | .eraseKey this key => do
      let (c, count) ← (w.containers this).eraseKey key
      some (w.setContainer this c, .removed count)
  | .merge this source => do
      if this = source then
        some (w, .nothing)
      else
        let (c, rest, fresh) ←
          (w.containers this).merge (w.containers source) w.next
        some ({ (w.setContainer this c).setContainer source rest with next := fresh }, .nothing)
  | .copy this other => do
      if this = other then
        some (w, .nothing)
      else
        let (c, fresh) ← (w.containers other).copyOf w.next
        let _ ← (w.containers this).clear
        some ({ w.setContainer this c with next := fresh }, .nothing)
  | .move this other => do
      if this = other then
        some (w, .nothing)
      else
        let _ ← (w.containers this).clear
        some ((w.setContainer this (w.containers other)).setContainer other
          (w.containers other).movedFrom, .nothing)
  | .swap this other =>
    some ((w.setContainer this (w.containers other)).setContainer other
      (w.containers this), .nothing)
  | .clear this => do
      let c ← (w.containers this).clear
      some (w.setContainer this c, .nothing)

end World

end Aburi.Adinkra
