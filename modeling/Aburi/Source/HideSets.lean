import Mathlib.Algebra.Ring.Nat
import Mathlib.Data.List.GetD
import Mathlib.Data.List.Sort
import Mathlib.Logic.Function.Basic

/-!
# Hide sets

A set of macro names is kept once, as a sorted list, and goes by its place.  What
was answered before is remembered, which stays right because no list ever changes.
-/

namespace Aburi.Source

open List

/-- Puts a name at its lower bound, unless it is there. -/
def insertName (name : ℕ) : List ℕ → List ℕ
  | [] => [name]
  | first :: rest =>
    if first < name then first :: insertName name rest
    else if first = name then first :: rest
    else name :: first :: rest

def setUnion : List ℕ → List ℕ → List ℕ
  | [], right => right
  | left, [] => left
  | x :: left, y :: right =>
    if x < y then x :: setUnion left (y :: right)
    else if y < x then y :: setUnion (x :: left) right
    else x :: setUnion left right

def setIntersection : List ℕ → List ℕ → List ℕ
  | [], _ => []
  | _, [] => []
  | x :: left, y :: right =>
    if x < y then setIntersection left (y :: right)
    else if y < x then setIntersection (x :: left) right
    else x :: setIntersection left right

/-- Looks at the lower bound of the name. -/
def binarySearch (name : ℕ) : List ℕ → Bool
  | [] => false
  | first :: rest => if first < name then binarySearch name rest else !decide (name < first)

variable {name x : ℕ} {left right : List ℕ}

theorem mem_insertName : x ∈ insertName name left ↔ x ∈ left ∨ x = name := by
  fun_induction insertName name left with grind

theorem sorted_insertName (sorted : left.Pairwise (· < ·)) :
    (insertName name left).Pairwise (· < ·) := by
  fun_induction insertName name left with grind [pairwise_cons, mem_insertName]

theorem mem_setUnion : x ∈ setUnion left right ↔ x ∈ left ∨ x ∈ right := by
  fun_induction setUnion left right with grind

theorem sorted_setUnion (leftSorted : left.Pairwise (· < ·)) (rightSorted : right.Pairwise (· < ·)) :
    (setUnion left right).Pairwise (· < ·) := by
  fun_induction setUnion left right with grind [pairwise_cons, mem_setUnion]

theorem mem_setIntersection (leftSorted : left.Pairwise (· < ·))
    (rightSorted : right.Pairwise (· < ·)) :
    x ∈ setIntersection left right ↔ x ∈ left ∧ x ∈ right := by
  fun_induction setIntersection left right with grind [pairwise_cons]

theorem sorted_setIntersection (leftSorted : left.Pairwise (· < ·))
    (rightSorted : right.Pairwise (· < ·)) :
    (setIntersection left right).Pairwise (· < ·) := by
  fun_induction setIntersection left right with grind [pairwise_cons, mem_setIntersection]

theorem binarySearch_iff (sorted : left.Pairwise (· < ·)) :
    binarySearch name left = true ↔ name ∈ left := by
  fun_induction binarySearch name left with grind [pairwise_cons]

inductive SetOperation where
  | insert
  | union
  | intersect
  deriving DecidableEq

/-- The lists, the map from lists to ids, and a memo table for each operation; its key
is the 64-bit word of both operands. -/
structure HideSets where
  sets : List (List ℕ) := []
  dedup : List ℕ → Option ℕ := fun _ => none
  memo : SetOperation → ℕ × ℕ → Option ℕ := fun _ _ => none

namespace HideSets

/-- All sets by their ids: the empty one has the id 0 and is not kept. -/
def lists (state : HideSets) : List (List ℕ) := [] :: state.sets

def names (state : HideSets) (id : ℕ) : List ℕ := state.lists.getD id []

/-- The id of a list, which for a new one is its place as a 32-bit number. -/
def intern (state : HideSets) (sortedNames : List ℕ) : ℕ × HideSets :=
  if sortedNames = [] then (0, state)
  else
    match state.dedup sortedNames with
    | some known => (known, state)
    | none =>
      let id := (state.sets.length + 1) % 2 ^ 32
      (id, { state with
        sets := state.sets ++ [sortedNames]
        dedup := Function.update state.dedup sortedNames (some id) })

def merged (state : HideSets) : SetOperation → ℕ → ℕ → List ℕ
  | .insert, lhs, name => insertName name (state.names lhs)
  | .union, lhs, rhs => setUnion (state.names lhs) (state.names rhs)
  | .intersect, lhs, rhs => setIntersection (state.names lhs) (state.names rhs)

/-- Answers from the memo table of the operation, or merges, interns and remembers. -/
def remembered (state : HideSets) (operation : SetOperation) (lhs rhs : ℕ) : ℕ × HideSets :=
  match state.memo operation (lhs, rhs) with
  | some known => (known, state)
  | none =>
    let (result, next) := state.intern (state.merged operation lhs rhs)
    (result, { next with
      memo := Function.update next.memo operation
        (Function.update (next.memo operation) (lhs, rhs) (some result)) })

def hideSetInsert (state : HideSets) (lhs name : ℕ) : ℕ × HideSets :=
  if lhs = 0 then state.intern [name] else state.remembered .insert lhs name

def hideSetUnion (state : HideSets) (lhs rhs : ℕ) : ℕ × HideSets :=
  if lhs = 0 ∨ lhs = rhs then (rhs, state)
  else if rhs = 0 then (lhs, state)
  else state.remembered .union (min lhs rhs) (max lhs rhs)

def hideSetIntersect (state : HideSets) (lhs rhs : ℕ) : ℕ × HideSets :=
  if lhs = 0 ∨ rhs = 0 then (0, state)
  else if lhs = rhs then (lhs, state)
  else state.remembered .intersect (min lhs rhs) (max lhs rhs)

def hideSetContains (state : HideSets) (set name : ℕ) : Bool :=
  if set = 0 ∨ name = 0 then false else binarySearch name (state.names set)

def call (state : HideSets) : SetOperation → ℕ → ℕ → ℕ × HideSets
  | .insert => state.hideSetInsert
  | .union => state.hideSetUnion
  | .intersect => state.hideSetIntersect

/-- The names that an operation gives a set. -/
def Gives (state : HideSets) : SetOperation → ℕ → ℕ → ℕ → Prop
  | .insert, lhs, name, x => x ∈ state.names lhs ∨ x = name
  | .union, lhs, rhs, x => x ∈ state.names lhs ∨ x ∈ state.names rhs
  | .intersect, lhs, rhs, x => x ∈ state.names lhs ∧ x ∈ state.names rhs

def Known (state : HideSets) (operation : SetOperation) (lhs rhs : ℕ) : Prop :=
  lhs < state.lists.length ∧ (operation ≠ .insert → rhs < state.lists.length)

/-- The id stands for what the operation is to give. -/
def Stands (state : HideSets) (operation : SetOperation) (lhs rhs id : ℕ) : Prop :=
  id < state.lists.length ∧ ∀ x, x ∈ state.names id ↔ state.Gives operation lhs rhs x

/-- Every list is sorted and has one id, and every remembered answer is right. -/
structure Sound (state : HideSets) : Prop where
  nodup : state.lists.Nodup
  sorted : ∀ list ∈ state.lists, list.Pairwise (· < ·)
  dedup : ∀ list id, state.dedup list = some id ↔ list ≠ [] ∧ state.lists[id]? = some list
  memo : ∀ operation lhs rhs id, state.memo operation (lhs, rhs) = some id →
    state.Known operation lhs rhs ∧ state.Stands operation lhs rhs id

/-- What a call returns and leaves behind. -/
def Answers (operation : SetOperation) (lhs rhs : ℕ) (result : ℕ × HideSets) : Prop :=
  result.2.Sound ∧ result.2.Stands operation lhs rhs result.1

/-- The old ids still stand for the old sets. -/
def Extends (state next : HideSets) : Prop := state.lists <+: next.lists

variable {state next : HideSets} {operation : SetOperation} {lhs rhs id : ℕ}

theorem Extends.names_eq (later : state.Extends next) (known : id < state.lists.length) :
    next.names id = state.names id := by
  obtain ⟨more, isLonger⟩ := later
  rw [names, names, ← isLonger, List.getD_append _ _ _ _ known]

theorem Extends.known (later : state.Extends next) (known : state.Known operation lhs rhs) :
    next.Known operation lhs rhs :=
  ⟨known.1.trans_le later.length_le, fun commutes => (known.2 commutes).trans_le later.length_le⟩

theorem Extends.gives_iff (later : state.Extends next) (known : state.Known operation lhs rhs) :
    next.Gives operation lhs rhs x ↔ state.Gives operation lhs rhs x := by
  obtain ⟨left, right⟩ := known
  cases operation with
  | insert => rw [Gives, Gives, later.names_eq left]
  | union | intersect => rw [Gives, Gives, later.names_eq left, later.names_eq (right nofun)]

theorem extends_intern (state : HideSets) (list : List ℕ) :
    state.Extends (state.intern list).2 := by
  unfold intern
  split_ifs
  · exact List.prefix_rfl
  · split
    · exact List.prefix_rfl
    · exact prefix_append (state.lists) [list]

theorem extends_remembered (state : HideSets) (operation : SetOperation) (lhs rhs : ℕ) :
    state.Extends (state.remembered operation lhs rhs).2 := by
  unfold remembered
  split
  · exact List.prefix_rfl
  · exact state.extends_intern _

theorem extends_call (state : HideSets) (operation : SetOperation) (lhs rhs : ℕ) :
    state.Extends (state.call operation lhs rhs).2 := by
  cases operation <;> simp only [call, hideSetInsert, hideSetUnion, hideSetIntersect] <;>
    split_ifs <;>
    first
    | exact List.prefix_rfl
    | exact state.extends_intern _
    | exact state.extends_remembered _ _ _

theorem Sound.names_sorted (sound : state.Sound) (id : ℕ) :
    (state.names id).Pairwise (· < ·) := by
  rw [names, getD_eq_getElem?_getD]
  cases found : state.lists[id]? with
  | none => exact Pairwise.nil
  | some list => exact sound.sorted list (mem_of_getElem? found)

theorem Sound.contains_iff (sound : state.Sound) (id : ℕ) (nonzero : name ≠ 0) :
    state.hideSetContains id name = true ↔ name ∈ state.names id := by
  by_cases empty : id = 0
  · subst empty
    simp [hideSetContains, names, lists]
  · simp only [hideSetContains, empty, nonzero, or_self, if_false]
    exact binarySearch_iff (sound.names_sorted id)

/-- One id for one set of names. -/
theorem Sound.ext (sound : state.Sound) {id' : ℕ} (known : id < state.lists.length)
    (known' : id' < state.lists.length)
    (same : ∀ x, x ∈ state.names id ↔ x ∈ state.names id') : id = id' := by
  have lists := (sound.names_sorted id).eq_of_mem_iff (sound.names_sorted id') same
  rw [names, names, getD_eq_getElem _ _ known, getD_eq_getElem _ _ known'] at lists
  exact sound.nodup.getElem_inj_iff.mp lists

theorem Sound.intern (sound : state.Sound) {list : List ℕ} (sorted : list.Pairwise (· < ·))
    (fits : (state.intern list).2.sets.length < 2 ^ 32) :
    (state.intern list).2.Sound ∧
      (state.intern list).1 < (state.intern list).2.lists.length ∧
      (state.intern list).2.names (state.intern list).1 = list := by
  have names_of {known : HideSets} {id : ℕ} (found : known.lists[id]? = some list) :
      id < known.lists.length ∧ known.names id = list := by
    obtain ⟨bound, isList⟩ := List.getElem?_eq_some_iff.1 found
    exact ⟨bound, by rw [names, getD_eq_getElem _ _ bound, isList]⟩
  have later := state.extends_intern list
  unfold HideSets.intern at *
  split
  case isTrue empty => exact ⟨sound, Nat.succ_pos _, empty.symm⟩
  case isFalse filled =>
    rw [if_neg filled] at fits later
    split
    case h_1 known found => exact ⟨sound, names_of ((sound.dedup list known).mp found).2⟩
    case h_2 absent =>
      simp only [absent, length_append, length_singleton] at fits later
      simp only [Nat.mod_eq_of_lt fits] at later ⊢
      generalize isNext : HideSets.mk (state.sets ++ [list]) _ state.memo = next at *
      have isLists : next.lists = state.lists ++ [list] := by rw [← isNext]; rfl
      have isDedup : next.dedup =
          Function.update state.dedup list (some state.lists.length) := by rw [← isNext]; rfl
      have isNew : list ∉ state.lists := by
        intro member
        obtain ⟨id, found⟩ := getElem?_of_mem member
        have known := (sound.dedup list id).mpr ⟨filled, found⟩
        rw [absent] at known
        cases known
      refine ⟨⟨?_, ?_, ?_, ?_⟩, names_of (by rw [isLists]; exact getElem?_concat_length)⟩
      · rw [isLists, nodup_append_comm, singleton_append, nodup_cons]
        exact ⟨isNew, sound.nodup⟩
      · rw [isLists, forall_mem_append]
        exact ⟨sound.sorted, fun _ isList => mem_singleton.mp isList ▸ sorted⟩
      · intro other id
        have old := sound.dedup other id
        rw [isDedup, isLists]
        grind
      · intro operation lhs rhs id found
        rw [← isNext] at found
        obtain ⟨known, stands⟩ := sound.memo operation lhs rhs id found
        refine ⟨later.known known, stands.1.trans_le later.length_le, fun x => ?_⟩
        rw [later.names_eq stands.1, later.gives_iff known, stands.2]

theorem Sound.merged (sound : state.Sound) (operation : SetOperation) (lhs rhs : ℕ) :
    (state.merged operation lhs rhs).Pairwise (· < ·) ∧
      ∀ x, x ∈ state.merged operation lhs rhs ↔ state.Gives operation lhs rhs x := by
  have left := sound.names_sorted lhs
  have right := sound.names_sorted rhs
  cases operation with
  | insert => exact ⟨sorted_insertName left, fun x => mem_insertName⟩
  | union => exact ⟨sorted_setUnion left right, fun x => mem_setUnion⟩
  | intersect => exact ⟨sorted_setIntersection left right, fun x => mem_setIntersection left right⟩

theorem Sound.remembered (sound : state.Sound) (known : state.Known operation lhs rhs)
    (fits : (state.remembered operation lhs rhs).2.sets.length < 2 ^ 32) :
    Answers operation lhs rhs (state.remembered operation lhs rhs) := by
  unfold HideSets.remembered at *
  split
  case h_1 result found => exact ⟨sound, (sound.memo operation lhs rhs result found).2⟩
  case h_2 absent =>
    rw [absent] at fits
    obtain ⟨sorted, isMerged⟩ := sound.merged operation lhs rhs
    obtain ⟨next, bound, isNames⟩ := sound.intern sorted fits
    have later := state.extends_intern (state.merged operation lhs rhs)
    have stands : (state.intern (state.merged operation lhs rhs)).2.Stands operation lhs rhs
        (state.intern (state.merged operation lhs rhs)).1 :=
      ⟨bound, fun x => by rw [isNames, isMerged, later.gives_iff known]⟩
    clear isNames isMerged sorted fits
    generalize state.intern (state.merged operation lhs rhs) = interned at *
    obtain ⟨result, after⟩ := interned
    refine ⟨⟨next.nodup, next.sorted, next.dedup, ?_⟩, stands⟩
    intro operation' lhs' rhs' id isNew
    by_cases same : operation' = operation ∧ lhs' = lhs ∧ rhs' = rhs
    · obtain ⟨rfl, rfl, rfl⟩ := same
      obtain rfl : result = id := by simpa using isNew
      exact ⟨later.known known, stands⟩
    · apply next.memo operation' lhs' rhs' id
      simp only [Function.update_apply] at isNew
      grind

/-- Both commutative operations look their operands up in one order. -/
theorem Sound.ordered (sound : state.Sound) (known : state.Known operation lhs rhs)
    (commutes : operation ≠ .insert)
    (fits : (state.remembered operation (min lhs rhs) (max lhs rhs)).2.sets.length < 2 ^ 32) :
    Answers operation lhs rhs (state.remembered operation (min lhs rhs) (max lhs rhs)) := by
  rcases le_total lhs rhs with ordered | swapped
  · rw [min_eq_left ordered, max_eq_right ordered] at *
    exact sound.remembered known fits
  · rw [min_eq_right swapped, max_eq_left swapped] at *
    obtain ⟨next, bound, answer⟩ := sound.remembered ⟨known.2 commutes, fun _ => known.1⟩ fits
    refine ⟨next, bound, fun x => (answer x).trans ?_⟩
    cases operation with
    | insert => exact absurd rfl commutes
    | union => exact or_comm
    | intersect => exact and_comm

theorem Sound.call (sound : state.Sound) (known : state.Known operation lhs rhs)
    (fits : (state.call operation lhs rhs).2.sets.length < 2 ^ 32) :
    Answers operation lhs rhs (state.call operation lhs rhs) := by
  have zero (later : HideSets) : later.names 0 = [] := rfl
  cases operation with
  | insert =>
    simp only [HideSets.call, hideSetInsert] at fits ⊢
    split_ifs at fits ⊢ with empty
    · obtain ⟨next, bound, isNames⟩ := sound.intern (pairwise_singleton _ rhs) fits
      exact ⟨next, bound, by simp [isNames, Gives, empty, zero]⟩
    · exact sound.remembered known fits
  | union =>
    simp only [HideSets.call, hideSetUnion] at fits ⊢
    split_ifs at fits ⊢ with first second
    · refine ⟨sound, known.2 nofun, ?_⟩
      rcases first with rfl | rfl <;> simp [Gives, zero]
    · exact ⟨sound, known.1, by simp [Gives, second, zero]⟩
    · exact sound.ordered known nofun fits
  | intersect =>
    simp only [HideSets.call, hideSetIntersect] at fits ⊢
    split_ifs at fits ⊢ with first second
    · refine ⟨sound, Nat.succ_pos _, ?_⟩
      rcases first with rfl | rfl <;> simp [Gives, zero]
    · exact ⟨sound, known.1, by simp [Gives, second]⟩
    · exact sound.ordered known nofun fits

theorem sound_empty : ({} : HideSets).Sound := by
  refine ⟨by simp [lists], by simp [lists], ?_, nofun⟩
  intro list id
  simp only [lists, getElem?_singleton]
  grind

/-- The states that calls lead to, with the ids that they have returned. -/
inductive Reached : HideSets → List ℕ → Prop
  | start : Reached {} [0]
  | call {state : HideSets} {ids : List ℕ} (operation : SetOperation) (lhs rhs : ℕ) :
    Reached state ids → lhs ∈ ids → (operation ≠ .insert → rhs ∈ ids) →
      Reached (state.call operation lhs rhs).2 ((state.call operation lhs rhs).1 :: ids)

variable {ids : List ℕ}

theorem Reached.sound (reached : Reached state ids) (fits : state.sets.length < 2 ^ 32) :
    state.Sound ∧ ∀ id ∈ ids, id < state.lists.length := by
  induction reached with
  | start => exact ⟨sound_empty, by simp [lists]⟩
  | @call state ids operation lhs rhs _ left right ih =>
    have later := state.extends_call operation lhs rhs
    have shorter : state.sets.length ≤ _ := Nat.le_of_succ_le_succ later.length_le
    obtain ⟨sound, known⟩ := ih (shorter.trans_lt fits)
    obtain ⟨next, bound, -⟩ :=
      sound.call ⟨known lhs left, fun commutes => known rhs (right commutes)⟩ fits
    refine ⟨next, forall_mem_cons.mpr ⟨bound, fun id member => ?_⟩⟩
    exact (known id member).trans_le later.length_le

/-- While the ids fit in 32 bits, they are the finite sets that the calls are to make. -/
theorem hideSets_are_sets (reached : Reached state ids) (fits : state.sets.length < 2 ^ 32) :
    (∀ id ∈ ids, (state.names id).Pairwise (· < ·)) ∧
      (∀ id ∈ ids, ∀ id' ∈ ids, id = id' ↔ ∀ x, x ∈ state.names id ↔ x ∈ state.names id') ∧
      (∀ id ∈ ids, ∀ name, name ≠ 0 →
        (state.hideSetContains id name = true ↔ name ∈ state.names id)) ∧
      ∀ operation, ∀ lhs ∈ ids, ∀ rhs, (operation ≠ .insert → rhs ∈ ids) →
        (state.call operation lhs rhs).2.sets.length < 2 ^ 32 →
        (∀ id ∈ ids, (state.call operation lhs rhs).2.names id = state.names id) ∧
          ∀ x, x ∈ (state.call operation lhs rhs).2.names (state.call operation lhs rhs).1 ↔
            state.Gives operation lhs rhs x := by
  obtain ⟨sound, known⟩ := reached.sound fits
  refine ⟨fun id _ => sound.names_sorted id, ?_, ?_, ?_⟩
  · intro id member id' member'
    exact ⟨fun same x => same ▸ Iff.rfl, sound.ext (known id member) (known id' member')⟩
  · exact fun id _ name nonzero => sound.contains_iff id nonzero
  · intro operation lhs left rhs right fitsLater
    have later := state.extends_call operation lhs rhs
    have operands : state.Known operation lhs rhs :=
      ⟨known lhs left, fun commutes => known rhs (right commutes)⟩
    obtain ⟨-, -, answer⟩ := sound.call operands fitsLater
    exact ⟨fun id member => later.names_eq (known id member),
      fun x => (answer x).trans (later.gives_iff operands)⟩

/-- Keeps {7}, {9} and {7, 9}; the third is found again by an insertion, and the second
as an intersection. -/
def sevenAndNine : HideSets :=
  ((((({} : HideSets).call .insert 0 7).2.call .insert 0 9).2.call .union 1 2).2.call
    .insert 1 9).2.call .intersect 3 2 |>.2

theorem hideSets_are_sets_two :
    sevenAndNine.sets = [[7], [9], [7, 9]] ∧ (sevenAndNine.call .union 2 1).1 = 3 ∧
      ∀ x, x ∈ (sevenAndNine.call .union 2 1).2.names (sevenAndNine.call .union 2 1).1 ↔
        x ∈ sevenAndNine.names 2 ∨ x ∈ sevenAndNine.names 1 := by
  have reached := ((((Reached.start.call .insert 0 7 (by decide) (by decide)).call
    .insert 0 9 (by decide) (by decide)).call .union 1 2 (by decide) (by decide)).call
    .insert 1 9 (by simp [call, hideSetInsert, intern]) (by decide)).call .intersect 3 2
    (by simp [call, hideSetInsert, hideSetUnion, remembered, merged, names, lists, setUnion, intern])
    (by simp [call, hideSetInsert, intern])
  have kept : sevenAndNine.sets = [[7], [9], [7, 9]] := by
    simp [sevenAndNine, call, hideSetInsert, hideSetUnion, hideSetIntersect, remembered, merged,
      names, lists, insertName, setUnion, setIntersection, intern]
  have again : sevenAndNine.call .union 2 1 = (3, sevenAndNine) := by
    simp [sevenAndNine, call, hideSetInsert, hideSetUnion, hideSetIntersect, remembered, merged,
      names, lists, insertName, setUnion, setIntersection, intern]
  have short : sevenAndNine.sets.length < 2 ^ 32 := by simp [kept]
  have later : (sevenAndNine.call .union 2 1).2.sets.length < 2 ^ 32 := by rwa [again]
  exact ⟨kept, by rw [again], ((hideSets_are_sets reached short).2.2.2 .union
    2 (by simp [call, hideSetInsert, intern]) 1 (by simp [call, hideSetInsert, intern]) later).2⟩

/-- What a call is to give is known already, or there is an id left for it. -/
def HasRoom (state : HideSets) (operation : SetOperation) (lhs rhs : ℕ) : Prop :=
  state.sets.length + 1 < 2 ^ 32 ∨ ∃ id, state.Stands operation lhs rhs id

/-- As `Reached`, with room for every call. -/
inductive ReachedInRoom : HideSets → List ℕ → Prop
  | start : ReachedInRoom {} [0]
  | call {state : HideSets} {ids : List ℕ} (operation : SetOperation) (lhs rhs : ℕ) :
    ReachedInRoom state ids → lhs ∈ ids → (operation ≠ .insert → rhs ∈ ids) →
      state.HasRoom operation lhs rhs →
      ReachedInRoom (state.call operation lhs rhs).2 ((state.call operation lhs rhs).1 :: ids)

/-- A call keeps what there is, or interns the list that it is to give. -/
theorem Sound.call_interns (sound : state.Sound) (operation : SetOperation) (lhs rhs : ℕ) :
    (state.call operation lhs rhs).2.sets = state.sets ∨
      ∃ list : List ℕ, list.Pairwise (· < ·) ∧ (∀ x, x ∈ list ↔ state.Gives operation lhs rhs x) ∧
        (state.call operation lhs rhs).1 = (state.intern list).1 ∧
        (state.call operation lhs rhs).2.sets = (state.intern list).2.sets := by
  have remembers (first second : ℕ)
      (same : ∀ x, state.Gives operation first second x ↔ state.Gives operation lhs rhs x) :
      (state.remembered operation first second).2.sets = state.sets ∨
        ∃ list : List ℕ, list.Pairwise (· < ·) ∧
          (∀ x, x ∈ list ↔ state.Gives operation lhs rhs x) ∧
          (state.remembered operation first second).1 = (state.intern list).1 ∧
          (state.remembered operation first second).2.sets = (state.intern list).2.sets := by
    obtain ⟨sorted, isMerged⟩ := sound.merged operation first second
    rw [HideSets.remembered]
    split
    case h_1 => exact Or.inl rfl
    case h_2 => exact Or.inr ⟨_, sorted, fun x => (isMerged x).trans (same x), rfl, rfl⟩
  cases operation with
  | insert =>
    simp only [HideSets.call, hideSetInsert]
    split_ifs with empty
    · refine Or.inr ⟨[rhs], pairwise_singleton _ _, fun x => ?_, rfl, rfl⟩
      simp [Gives, empty, names, lists]
    · exact remembers lhs rhs fun x => Iff.rfl
  | union =>
    simp only [HideSets.call, hideSetUnion]
    split_ifs
    · exact Or.inl rfl
    · exact Or.inl rfl
    · apply remembers
      intro x
      rcases le_total lhs rhs with ordered | swapped
      · rw [min_eq_left ordered, max_eq_right ordered]
      · rw [min_eq_right swapped, max_eq_left swapped]
        exact or_comm
  | intersect =>
    simp only [HideSets.call, hideSetIntersect]
    split_ifs
    · exact Or.inl rfl
    · exact Or.inl rfl
    · apply remembers
      intro x
      rcases le_total lhs rhs with ordered | swapped
      · rw [min_eq_left ordered, max_eq_right ordered]
      · rw [min_eq_right swapped, max_eq_left swapped]
        exact and_comm

theorem sets_intern (state : HideSets) (list : List ℕ) :
    (state.intern list).2.sets = state.sets ∨
      list ≠ [] ∧ (state.intern list).1 = (state.sets.length + 1) % 2 ^ 32 ∧
        (state.intern list).2.sets = state.sets ++ [list] := by
  unfold HideSets.intern
  split
  case isTrue => exact Or.inl rfl
  case isFalse filled =>
    split
    · exact Or.inl rfl
    · exact Or.inr ⟨filled, rfl, rfl⟩

theorem Sound.intern_of_mem (sound : state.Sound) {list : List ℕ} (member : list ∈ state.lists) :
    (state.intern list).2.sets = state.sets := by
  unfold HideSets.intern
  split
  case isTrue => rfl
  case isFalse filled =>
    obtain ⟨id, found⟩ := getElem?_of_mem member
    rw [(sound.dedup list id).mpr ⟨filled, found⟩]

theorem Sound.fits_iff (sound : state.Sound) (known : state.Known operation lhs rhs)
    (fits : state.sets.length < 2 ^ 32) :
    (state.call operation lhs rhs).2.sets.length < 2 ^ 32 ↔ state.HasRoom operation lhs rhs := by
  have later := state.extends_call operation lhs rhs
  constructor
  · intro fitsLater
    obtain ⟨-, bound, answer⟩ := sound.call known fitsLater
    rw [HasRoom, or_iff_not_imp_left]
    intro full
    have sameLength : state.lists.length = (state.call operation lhs rhs).2.lists.length := by
      have longer := later.length_le
      simp only [lists, length_cons] at longer ⊢
      omega
    have same : (state.call operation lhs rhs).2.lists = state.lists :=
      (later.eq_of_length sameLength).symm
    rw [same] at bound
    refine ⟨_, bound, fun x => ?_⟩
    rw [← later.gives_iff known, ← answer, names, names, same]
  · rintro (room | ⟨id, bound, stands⟩)
    · rcases sound.call_interns operation lhs rhs with same | ⟨list, -, -, -, same⟩
      · rwa [same]
      · rw [same]
        rcases state.sets_intern list with kept | ⟨-, -, grown⟩
        · rwa [kept]
        · rwa [grown, length_append, length_singleton]
    · rcases sound.call_interns operation lhs rhs with same | ⟨list, sorted, gives, -, same⟩
      · rwa [same]
      · have isNames : state.names id = list :=
          (sound.names_sorted id).eq_of_mem_iff sorted fun x => (stands x).trans (gives x).symm
        rw [names, getD_eq_getElem _ _ bound] at isNames
        rwa [same, sound.intern_of_mem (isNames ▸ getElem_mem bound)]

theorem ReachedInRoom.reached (inRoom : ReachedInRoom state ids) :
    Reached state ids ∧ state.sets.length < 2 ^ 32 := by
  induction inRoom with
  | start => exact ⟨.start, by decide⟩
  | @call state ids operation lhs rhs _ left right room ih =>
    obtain ⟨reached, fits⟩ := ih
    obtain ⟨sound, known⟩ := reached.sound fits
    have operands : state.Known operation lhs rhs :=
      ⟨known lhs left, fun commutes => known rhs (right commutes)⟩
    exact ⟨.call operation lhs rhs reached left right, (sound.fits_iff operands fits).mpr room⟩

/-- Without room the new set gets the id of the empty one. -/
theorem Sound.answer_iff (sound : state.Sound) (known : state.Known operation lhs rhs)
    (fits : state.sets.length < 2 ^ 32) :
    (∀ x, x ∈ (state.call operation lhs rhs).2.names (state.call operation lhs rhs).1 ↔
      state.Gives operation lhs rhs x) ↔ state.HasRoom operation lhs rhs := by
  have later := state.extends_call operation lhs rhs
  rw [← sound.fits_iff known fits]
  constructor
  · intro right
    by_contra full
    rcases sound.call_interns operation lhs rhs with same | ⟨list, -, gives, isId, same⟩
    · exact full (same ▸ fits)
    · rw [same] at full
      rcases state.sets_intern list with kept | ⟨filled, wraps, grown⟩
      · exact full (kept ▸ fits)
      · rw [grown, length_append, length_singleton] at full
        have isFull : state.sets.length + 1 = 2 ^ 32 := by omega
        rw [isId, wraps, isFull, Nat.mod_self] at right
        obtain ⟨x, member⟩ := exists_mem_of_ne_nil list filled
        exact absurd ((right x).mpr ((gives x).mp member)) (by simp [names, lists])
  · intro fitsLater x
    obtain ⟨-, -, answer⟩ := sound.call known fitsLater
    exact (answer x).trans (later.gives_iff known)

/-- A call gives the set that it is to give exactly when there is room for it; in a run
with room for every call the ids are sets. -/
theorem calls_right_iff_room (inRoom : ReachedInRoom state ids) :
    (∀ id ∈ ids, (state.names id).Pairwise (· < ·)) ∧
      (∀ id ∈ ids, ∀ id' ∈ ids, id = id' ↔ ∀ x, x ∈ state.names id ↔ x ∈ state.names id') ∧
      (∀ id ∈ ids, ∀ name, name ≠ 0 →
        (state.hideSetContains id name = true ↔ name ∈ state.names id)) ∧
      ∀ operation, ∀ lhs ∈ ids, ∀ rhs, (operation ≠ .insert → rhs ∈ ids) →
        (∀ id ∈ ids, (state.call operation lhs rhs).2.names id = state.names id) ∧
          ((∀ x, x ∈ (state.call operation lhs rhs).2.names (state.call operation lhs rhs).1 ↔
            state.Gives operation lhs rhs x) ↔ state.HasRoom operation lhs rhs) := by
  obtain ⟨reached, fits⟩ := inRoom.reached
  obtain ⟨sound, known⟩ := reached.sound fits
  refine ⟨fun id _ => sound.names_sorted id, ?_, fun id _ name nonzero => ?_, ?_⟩
  · intro id member id' member'
    exact ⟨fun same x => same ▸ Iff.rfl, sound.ext (known id member) (known id' member')⟩
  · exact sound.contains_iff id nonzero
  · intro operation lhs left rhs right
    have later := state.extends_call operation lhs rhs
    exact ⟨fun id member => later.names_eq (known id member), sound.answer_iff
      ⟨known lhs left, fun commutes => known rhs (right commutes)⟩ fits⟩

theorem calls_right_iff_room_one :
    (({} : HideSets).call .insert 0 7).2.call .insert 1 9 = (2, ((({} : HideSets).call .insert 0
        7).2.call .insert 1 9).2) ∧
      ∀ x, x ∈ ((({} : HideSets).call .insert 0 7).2.call .insert 1 9).2.names 2 ↔
        x ∈ (({} : HideSets).call .insert 0 7).2.names 1 ∨ x = 9 := by
  have inRoom := ReachedInRoom.start.call .insert 0 7 (by decide) (by decide) (Or.inl (by decide))
  have isId : ((({} : HideSets).call .insert 0 7).2.call .insert 1 9).1 = 2 := by
    simp [call, hideSetInsert, remembered, merged, names, lists, insertName, intern]
  have room : (({} : HideSets).call .insert 0 7).2.HasRoom .insert 1 9 := by
    refine Or.inl ?_
    simp [call, hideSetInsert, intern]
  have right := ((calls_right_iff_room inRoom).2.2.2 .insert 1
    (by simp [call, hideSetInsert, intern]) 9 (by simp)).2.mpr room
  rw [isId] at right
  exact ⟨Prod.ext isId rfl, right⟩

/-- The names from 1 to a number, each put into a set of its own. -/
def singletons : ℕ → HideSets
  | 0 => {}
  | count + 1 => ((singletons count).call .insert 0 (count + 1)).2

theorem singletons_reached {count : ℕ} (few : count < 2 ^ 32) :
    (singletons count).sets = (List.range count).map (fun index => [index + 1]) ∧
      ∃ ids, Reached (singletons count) ids ∧ ∀ id ≤ count, id ∈ ids := by
  induction count with
  | zero => exact ⟨rfl, [0], .start, by simp⟩
  | succ count ih =>
    obtain ⟨isSets, ids, reached, members⟩ := ih (Nat.lt_of_succ_lt few)
    have isLength : (singletons count).sets.length = count := by simp [isSets]
    have fits : (singletons count).sets.length < 2 ^ 32 := by omega
    obtain ⟨sound, -⟩ := reached.sound fits
    have isNew : (singletons count).dedup [count + 1] = none := by
      rw [Option.eq_none_iff_forall_ne_some]
      intro id found
      have member := mem_of_getElem? ((sound.dedup _ id).mp found).2
      simp [lists, isSets] at member
    have isCall : (singletons count).call .insert 0 (count + 1) =
        (count + 1, { singletons count with
          sets := (singletons count).sets ++ [[count + 1]]
          dedup := Function.update (singletons count).dedup [count + 1] (some (count + 1)) }) := by
      have isId := Nat.mod_eq_of_lt few
      simp only [call, hideSetInsert, intern, isNew, isLength, isId]
      simp
    have next := reached.call .insert 0 (count + 1) (members 0 (Nat.zero_le _)) (by simp)
    rw [singletons]
    refine ⟨?_, _, next, ?_⟩
    · rw [isCall, range_succ, map_append, isSets]
      rfl
    · rw [isCall]
      intro id atMost
      rcases Nat.le_succ_iff.mp atMost with old | rfl
      · exact mem_cons_of_mem _ (members id old)
      · exact mem_cons_self

/-- When every id is taken, putting the name 2 to the name 1 answers the empty set. -/
theorem last_call_wrong :
    ∃ count ids, count + 1 = 2 ^ 32 ∧ Reached (singletons count) ids ∧ 1 ∈ ids ∧
      ¬ ∀ x, x ∈ ((singletons count).call .insert 1 2).2.names
          ((singletons count).call .insert 1 2).1 ↔ (singletons count).Gives .insert 1 2 x := by
  obtain ⟨count, isFull⟩ : ∃ count, count + 1 = 2 ^ 32 := ⟨2 ^ 32 - 1, rfl⟩
  obtain ⟨isSets, ids, reached, members⟩ := singletons_reached (by omega : count < 2 ^ 32)
  have isLength : (singletons count).sets.length = count := by simp [isSets]
  have fits : (singletons count).sets.length < 2 ^ 32 := by omega
  obtain ⟨sound, known⟩ := reached.sound fits
  have member := members 1 (by omega)
  refine ⟨count, ids, isFull, reached, member, ?_⟩
  rw [sound.answer_iff ⟨known 1 member, by simp⟩ fits, HasRoom, isLength, isFull, or_iff_right
    (lt_irrefl _)]
  rintro ⟨id, bound, stands⟩
  have one : (singletons count).names 1 = [1] := by
    have positive : 0 < count := by omega
    simp [names, lists, isSets, positive]
  have both := And.intro ((stands 1).mpr (by simp [Gives, one])) ((stands 2).mpr (by simp [Gives]))
  rw [names, getD_eq_getElem _ _ bound] at both
  have isList := getElem_mem bound
  generalize (singletons count).lists[id] = list at both isList
  simp only [lists, isSets, mem_cons, mem_map] at isList
  obtain rfl | ⟨index, -, rfl⟩ := isList
  · simp at both
  · simp only [mem_singleton] at both
    omega

end HideSets

end Aburi.Source
