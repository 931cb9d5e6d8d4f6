import Aburi.Adinkra.MapSearch
import Mathlib.Data.List.Find

/-!
# Containers keep their lists

Each operation of a container, on a container that keeps a sorted list: what it
returns, and the list that it keeps afterwards.
-/

namespace Aburi.Adinkra

open Lib Option Function
open List hiding after

variable {Key Other Mapped : Type}

/-- The container holds the elements of the list, at addresses below `fresh`. -/
structure Keeps (c : Container Key Other Mapped) (r : Reference Key Other Mapped) (fresh : Nat) :
    Prop where
  tree : ∃ t, c.links.Holds t ∧ t.RedBlack ∧ Reads c t r.elements
  size : c.size = r.elements.length
  comparator : c.comparator = r.comparator
  allowDuplicates : c.allowDuplicates = r.allowDuplicates
  order : r.elements ≠ [] → StrictWeak r.compare
  sorted : r.Sorted
  below : ∀ e ∈ r.elements, e.node < fresh

variable {c : Container Key Other Mapped} {r : Reference Key Other Mapped} {fresh : Nat}

namespace Keeps

theorem empty (comparator : Comparator Key Other) (allowDuplicates : Bool) (fresh : Nat) :
    Keeps (Container.empty comparator allowDuplicates : Container Key Other Mapped)
      ⟨[], comparator, allowDuplicates⟩ fresh where
  tree := ⟨.nil, ⟨rfl, trivial, .nil⟩, ⟨rfl, 0, rfl⟩, ⟨rfl, by simp⟩⟩
  size := rfl
  comparator := rfl
  allowDuplicates := rfl
  order := fun some => absurd rfl some
  sorted := .nil
  below := by simp

section

variable (keeps : Keeps c r fresh)
include keeps

theorem fuel_eq : c.fuel = r.elements.length + 1 := by
  rw [Container.fuel, keeps.size]

/-- A list without elements asks nothing of its comparator. -/
theorem weak : r.elements.Pairwise fun a b =>
    StrictWeak r.compare ∧ r.compare b.key a.key = false := by
  by_cases empty : r.elements = []
  · rw [empty]
    exact .nil
  · have order := keeps.order empty
    exact (keeps.sorted.weak order).imp fun later => ⟨order, later⟩

theorem strictWeak {e : Element Key Mapped} (member : e ∈ r.elements) : StrictWeak r.compare :=
  keeps.order (ne_nil_of_mem member)

theorem nodup : (r.elements.map Element.node).Nodup := by
  obtain ⟨t, holds, -, reads⟩ := keeps.tree
  rw [← reads.nodes]
  exact holds.distinct

theorem mono {fresh' : Nat} (later : fresh ≤ fresh') :
    Keeps c r fresh' :=
  { keeps with below := fun e member => Nat.lt_of_lt_of_le (keeps.below e member) later }

theorem begin_eq :
    c.begin = some (r.elements.head?.map Element.node) := by
  obtain ⟨t, holds, -, reads⟩ := keeps.tree
  have counted := reads.length
  rw [Container.begin, keeps.fuel_eq, holds.rooted]
  cases root : t.root with
  | none =>
    have empty := Shape.eq_nil_of_root root
    subst empty
    rw [reads.nil]
    rfl
  | some top =>
    obtain ⟨path, red, found, far, rfl, along, result⟩ :=
      @extreme_eq _ c.links .left t none top (r.elements.length + 1) holds.represented root
        (by omega)
    have first := @head_listed_plug _ .right path red found far along
    rw [minimum, result, ← head?_map, ← reads.nodes]
    exact congrArg some first.symm

end

variable {first last : List (Element Key Mapped)} {e : Element Key Mapped}

section

variable (keeps : Keeps c r fresh)
include keeps

theorem next_eq (split : r.elements = first ++ e :: last) :
    next c.fuel c.links e.node = some (last.head?.map Element.node) := by
  obtain ⟨t, holds, -, reads⟩ := keeps.tree
  have order : t.inorder = first.map Element.node ++ e.node :: last.map Element.node := by
    rw [reads.nodes, split, map_append, map_cons]
  have counted := reads.length
  rw [next_member holds (by rw [keeps.fuel_eq]; omega) order, head?_map]

theorem value_eq (member : e ∈ r.elements) :
    c.value e.node = some (e.key, e.mapped) := by
  obtain ⟨t, -, -, reads⟩ := keeps.tree
  exact reads.values e member

theorem readFrom_eq {first last : List (Element Key Mapped)} (split : r.elements = first ++ last)
    {fuel : Nat} (enough : last.length < fuel) :
    c.readFrom fuel (last.head?.map Element.node) = some (last.map fun e => (e.key, e.mapped)) := by
  induction last generalizing first fuel with
  | nil =>
    obtain _ | fuel := fuel
    · omega
    rfl
  | cons e last ih =>
    obtain _ | fuel := fuel
    · omega
    have following := keeps.next_eq split
    have value := keeps.value_eq (show e ∈ r.elements by simp [split])
    have rest := @ih (first ++ [e]) (by simp [split]) fuel (by simpa using enough)
    simp [Container.readFrom, value, following, rest]

theorem iterate_eq :
    c.iterate = some (r.elements.map fun e => (e.key, e.mapped)) := by
  rw [Container.iterate, keeps.begin_eq]
  exact @readFrom_eq _ _ _ _ _ _ keeps [] r.elements rfl _ (by rw [keeps.fuel_eq]; omega)

theorem bound_eq {stop : Key → Bool}
    (monotone : r.elements.Pairwise fun a b => stop a.key = true → stop b.key = true) :
    c.boundNode stop c.fuel c.links.root none =
      some ((r.elements.find? fun e => stop e.key).map Element.node) := by
  obtain ⟨t, holds, -, reads⟩ := keeps.tree
  rw [holds.rooted, boundNode_eq holds.represented reads monotone
    (by rw [keeps.fuel_eq]; omega), or_none]

theorem lowerBound_eq {argument : KeyValue Key Other} {key : Key}
    (compares : r.ComparesAs argument key) :
    c.lowerBound argument =
      some ((r.elements.find? fun e => !r.compare e.key key).map Element.node) := by
  have same : r.elements.find? (fun e => !r.comparator.greater argument e.key) =
      r.elements.find? fun e => !r.compare e.key key :=
    find?_congr fun e member => by rw [compares.greater e member]
  rw [Container.lowerBound, keeps.comparator, ← same]
  refine @bound_eq _ _ _ _ _ _ keeps (fun current => !r.comparator.greater argument current)
    (keeps.weak.imp_of_mem ?_)
  intro a b inA inB ⟨order, later⟩ stops
  simp only [compares.greater a inA, compares.greater b inB, Bool.not_eq_true'] at stops ⊢
  exact order.not_less_trans stops later

theorem upperBound_eq {argument : KeyValue Key Other} {key : Key}
    (compares : r.ComparesAs argument key) :
    c.upperBound argument =
      some ((r.elements.find? fun e => r.compare key e.key).map Element.node) := by
  have same : r.elements.find? (fun e => r.comparator.less argument e.key) =
      r.elements.find? fun e => r.compare key e.key :=
    find?_congr fun e member => by rw [compares.less e member]
  rw [Container.upperBound, keeps.comparator, ← same]
  refine @bound_eq _ _ _ _ _ _ keeps (fun current => r.comparator.less argument current)
    (keeps.weak.imp_of_mem ?_)
  intro a b inA inB ⟨order, later⟩ stops
  simp only [compares.less a inA, compares.less b inB] at stops ⊢
  exact order.less_of_less_of_not_less stops later

theorem partition (key : Key) :
    ∃ low equal high, r.elements = low ++ (equal ++ high) ∧
      (∀ e ∈ low, r.compare e.key key = true) ∧
      (∀ e ∈ equal, r.compare e.key key = false ∧ r.compare key e.key = false) ∧
      (∀ e ∈ high, r.compare key e.key = true) := by
  have order := keeps.order
  have sorted := keeps.weak.imp And.right
  generalize r.elements = elements at order sorted
  induction elements with
  | nil => exact ⟨[], [], [], rfl, by simp, by simp, by simp⟩
  | cons a rest ih =>
    replace order := order (cons_ne_nil a rest)
    replace ih := ih fun _ => order
    obtain ⟨after, restSorted⟩ := pairwise_cons.1 sorted
    cases greater : r.compare key a.key with
    | true =>
      refine ⟨[], [], a :: rest, rfl, by simp, by simp, fun e member => ?_⟩
      rcases mem_cons.1 member with rfl | inRest
      · exact greater
      · exact order.less_of_less_of_not_less greater (after e inRest)
    | false =>
      obtain ⟨low, equal, high, rfl, lows, equals, highs⟩ := ih restSorted
      cases less : r.compare a.key key with
      | true =>
        refine ⟨a :: low, equal, high, rfl, fun e member => ?_, equals, highs⟩
        rcases mem_cons.1 member with rfl | inLow
        · exact less
        · exact lows e inLow
      | false =>
        have noLow : low = [] := by
          cases low with
          | nil => rfl
          | cons e low =>
            have := order.less_of_not_less_of_less (after e (by simp)) (lows e (by simp))
            rw [less] at this
            exact absurd this (by simp)
        subst noLow
        refine ⟨[], a :: equal, high, rfl, by simp, fun e member => ?_, highs⟩
        rcases mem_cons.1 member with rfl | inEqual
        · exact ⟨less, greater⟩
        · exact equals e inEqual

theorem find_eq {argument : KeyValue Key Other} {key : Key}
    (compares : r.ComparesAs argument key) :
    (c.find argument = some none ∧ ∀ e ∈ r.elements, r.equivalent e.key key = false) ∨
      ∃ e ∈ r.elements, c.find argument = some (some e.node) ∧
        r.equivalent e.key key = true := by
  obtain ⟨t, holds, -, reads⟩ := keeps.tree
  by_cases empty : r.elements = []
  · rw [empty] at reads
    have noNodes : t.inorder = [] := reads.nodes
    have nil : t = .nil := by
      cases t with
      | nil => rfl
      | node red left addr right => simp [Shape.inorder] at noNodes
    subst nil
    refine .inl ⟨?_, by simp [empty]⟩
    rw [Container.find, holds.rooted, keeps.fuel_eq]
    rfl
  have order := keeps.order empty
  have same := (@descents_congr _ _ _ c t none r.elements argument (.key key) holds.represented reads
    (by rw [keeps.comparator]; exact compares.less) c.fuel).2
    (by rw [keeps.comparator]; exact compares.greater)
  have found := @findNode_eq _ _ _ _ _ order _ _ _ key _
    (congrArg Comparator.keys keeps.comparator) holds.represented reads
    (keeps.sorted.weak order) (show _ < c.fuel by rw [keeps.fuel_eq]; omega)
  rw [← same, ← holds.rooted] at found
  rcases found with ⟨result, none⟩ | ⟨e, member, result, notLess, notGreater⟩
  · refine .inl ⟨result, fun e member => ?_⟩
    rcases none e member with less | greater
    · simp [Reference.equivalent, less]
    · simp [Reference.equivalent, greater]
  · exact .inr ⟨e, member, result, by simp [Reference.equivalent, notLess, notGreater]⟩

theorem contains_eq {argument : KeyValue Key Other} {key : Key}
    (compares : r.ComparesAs argument key) :
    c.contains argument = some (r.elements.any fun e => r.equivalent e.key key) := by
  rcases keeps.find_eq compares with ⟨result, none⟩ | ⟨e, member, result, equivalent⟩
  · have nowhere : (r.elements.any fun e => r.equivalent e.key key) = false := by
      simpa using none
    simp [Container.contains, result, nowhere]
  · have somewhere : (r.elements.any fun e => r.equivalent e.key key) = true :=
      List.any_eq_true.2 ⟨e, member, equivalent⟩
    simp [Container.contains, result, somewhere]

end

variable {key : Key} {low equal high : List (Element Key Mapped)}

theorem equalRange_eq (keeps : Keeps c r fresh) {argument : KeyValue Key Other}
    (compares : r.ComparesAs argument key) (parts : r.elements = low ++ (equal ++ high))
    (lows : ∀ e ∈ low, r.compare e.key key = true)
    (equals : ∀ e ∈ equal, r.compare e.key key = false ∧ r.compare key e.key = false)
    (highs : ∀ e ∈ high, r.compare key e.key = true) :
    c.equalRange argument =
      some ((equal ++ high).head?.map Element.node, high.head?.map Element.node) := by
  have skipLow : (low.find? fun e => !r.compare e.key key) = none := by
    rw [find?_eq_none]
    intro e member
    simp [lows e member]
  have skipLow' : (low.find? fun e => r.compare key e.key) = none := by
    rw [find?_eq_none]
    intro e member
    simp [(keeps.strictWeak (show e ∈ r.elements by simp [parts, member])).asymm (lows e member)]
  have skipEqual : (equal.find? fun e => r.compare key e.key) = none := by
    rw [find?_eq_none]
    intro e member
    simp [(equals e member).2]
  have lower : ((equal ++ high).find? fun e => !r.compare e.key key) = (equal ++ high).head? := by
    cases whole : equal ++ high with
    | nil => rfl
    | cons e rest =>
      refine find?_cons_of_pos ?_
      have member : e ∈ equal ++ high := by simp [whole]
      rcases mem_append.1 member with inEqual | inHigh
      · simp [(equals e inEqual).1]
      · have order := keeps.strictWeak (show e ∈ r.elements by simp [parts, inHigh])
        simp [order.asymm (highs e inHigh)]
  have upper : (high.find? fun e => r.compare key e.key) = high.head? := by
    cases high with
    | nil => rfl
    | cons e rest => exact find?_cons_of_pos (highs e (by simp))
  rw [Container.equalRange, keeps.lowerBound_eq compares, keeps.upperBound_eq compares, parts,
    find?_append,
    skipLow, none_or, lower, find?_append, skipLow', none_or,
    find?_append, skipEqual, none_or, upper]
  rfl

/-- A range is empty exactly when its ends are the same node. -/
theorem head_ne (keeps : Keeps c r fresh) {middle : List (Element Key Mapped)}
    (split : r.elements = first ++ e :: (middle ++ last)) :
    some e.node ≠ last.head?.map Element.node := by
  have distinct := keeps.nodup
  rw [split] at distinct
  simp only [map_append, map_cons] at distinct
  have fresh := (nodup_cons.1 (nodup_append.1 distinct).2.1).1
  cases last with
  | nil => simp
  | cons e' last =>
    intro same
    have : e.node = e'.node := by simpa using same
    exact fresh (by simp [this])

theorem countRange_eq (keeps : Keeps c r fresh) {middle : List (Element Key Mapped)}
    (split : r.elements = first ++ (middle ++ last)) {fuel : Nat} (result : Nat)
    (enough : middle.length < fuel) :
    c.countRange fuel ((middle ++ last).head?.map Element.node) (last.head?.map Element.node)
      result = some (result + middle.length) := by
  induction middle generalizing first fuel result with
  | nil =>
    obtain _ | fuel := fuel
    · omega
    simp [Container.countRange]
  | cons e middle ih =>
    obtain _ | fuel := fuel
    · omega
    have following := keeps.next_eq (show r.elements = first ++ e :: (middle ++ last) from split)
    have different := keeps.head_ne (show r.elements = first ++ e :: (middle ++ last) from split)
    have rest := @ih (first ++ [e]) (by simp [split]) fuel (result + 1)
      (by simpa using enough)
    simp only [List.cons_append, head?_cons, map_some, Container.countRange,
      ne_eq, different, not_false_eq_true, if_true, bind_eq_bind, bind_some,
      following, rest, length_cons]
    congr 1
    omega

theorem countP_parts (lows : ∀ e ∈ low, r.compare e.key key = true)
    (equals : ∀ e ∈ equal, r.compare e.key key = false ∧ r.compare key e.key = false)
    (highs : ∀ e ∈ high, r.compare key e.key = true) :
    (low ++ (equal ++ high)).countP (fun e => r.equivalent e.key key) = equal.length ∧
      (low ++ (equal ++ high)).filter (fun e => !r.equivalent e.key key) = low ++ high := by
  have noLow : ∀ e ∈ low, r.equivalent e.key key = false := fun e member => by
    simp [Reference.equivalent, lows e member]
  have allEqual : ∀ e ∈ equal, r.equivalent e.key key = true := fun e member => by
    simp [Reference.equivalent, equals e member]
  have noHigh : ∀ e ∈ high, r.equivalent e.key key = false := fun e member => by
    simp [Reference.equivalent, highs e member]
  constructor
  · rw [countP_append, countP_append, countP_eq_zero.2, countP_eq_length.2, countP_eq_zero.2]
    · omega
    · exact fun e member => by simp [noHigh e member]
    · exact allEqual
    · exact fun e member => by simp [noLow e member]
  · rw [filter_append, filter_append, filter_eq_self.2, filter_eq_nil_iff.2,
      filter_eq_self.2, nil_append]
    · exact fun e member => by simp [noHigh e member]
    · exact fun e member => by simp [allEqual e member]
    · exact fun e member => by simp [noLow e member]

theorem equal_le_one (keeps : Keeps c r fresh) (unique : r.allowDuplicates = false)
    (parts : r.elements = low ++ (equal ++ high))
    (equals : ∀ e ∈ equal, r.compare e.key key = false ∧ r.compare key e.key = false) :
    equal.length ≤ 1 := by
  have sorted := keeps.sorted
  simp only [Reference.Sorted, unique, Bool.false_eq_true, if_false, parts] at sorted
  have within := (pairwise_append.1 (pairwise_append.1 sorted).2.1).1
  match equal, within, equals with
  | [], _, _ | [_], _, _ => simp
  | a :: b :: rest, within, equals =>
    have less := (pairwise_cons.1 within).1 b (by simp)
    have left := equals a (by simp)
    have right := equals b (by simp)
    have order := keeps.strictWeak (show a ∈ r.elements by simp [parts])
    have := (order.incomparable _ _ _ left.1 left.2 right.2 right.1).1
    rw [less] at this
    exact absurd this (by simp)

theorem count_eq (keeps : Keeps c r fresh) {argument : KeyValue Key Other}
    (compares : r.ComparesAs argument key) :
    c.count argument = some (r.elements.countP fun e => r.equivalent e.key key) := by
  obtain ⟨low, equal, high, parts, lows, equals, highs⟩ := keeps.partition key
  have counted := (countP_parts lows equals highs).1
  rw [← parts] at counted
  rw [Container.count, keeps.allowDuplicates, counted]
  cases flag : r.allowDuplicates with
  | true =>
    have shorter : equal.length < c.fuel := by
      rw [keeps.fuel_eq, parts]
      simp only [length_append]
      omega
    have result := keeps.countRange_eq parts 0 shorter
    simp only [if_true, keeps.equalRange_eq compares parts lows equals highs, bind_eq_bind,
      bind_some, result, Nat.zero_add]
  | false =>
    have atMostOne := keeps.equal_le_one flag parts equals
    rcases keeps.find_eq compares with ⟨result, none⟩ | ⟨e, member, result, equivalent⟩
    · have zero : r.elements.countP (fun e => r.equivalent e.key key) = 0 :=
        countP_eq_zero.2 fun e member => by simp [none e member]
      simp [result, ← counted, zero]
    · have positive : 0 < r.elements.countP (fun e => r.equivalent e.key key) :=
        countP_pos_iff.2 ⟨e, member, equivalent⟩
      have one : equal.length = 1 := by omega
      simp [result, one]

theorem insertNew_eq {key : Key} {mapped : Mapped} {first last : List (Element Key Mapped)}
    (parts : r.elements = first ++ last) (lows : ∀ e ∈ first, r.compare key e.key = false)
    (highs : ∀ e ∈ last, r.compare key e.key = true) :
    (r.insertNew fresh key mapped).elements = first ++ ⟨fresh, key, mapped⟩ :: last := by
  have keep : ∀ e ∈ first, (!r.compare key e.key) = true := fun e member => by
    simp [lows e member]
  have stop : last.takeWhile (fun e => !r.compare key e.key) = [] ∧
      last.dropWhile (fun e => !r.compare key e.key) = last := by
    cases last with
    | nil => simp
    | cons e last => simp [highs e (by simp)]
  simp only [Reference.insertNew, parts]
  rw [takeWhile_append_of_pos keep, dropWhile_append_of_pos keep, stop.1, stop.2, append_nil]

theorem sorted_insertNew (keeps : Keeps c r fresh) (order : StrictWeak r.compare) {mapped : Mapped}
    (parts : r.elements = first ++ last) (lows : ∀ e ∈ first, r.compare key e.key = false)
    (highs : ∀ e ∈ last, r.compare key e.key = true)
    (unique : r.allowDuplicates = false → ∀ e ∈ first, r.compare e.key key = true) :
    (r.insertNew fresh key mapped).Sorted := by
  have sorted := keeps.sorted
  rw [Reference.Sorted, insertNew_eq parts lows highs]
  rw [Reference.Sorted, parts, pairwise_append] at sorted
  obtain ⟨firstSorted, lastSorted, across⟩ := sorted
  refine pairwise_append.2 ⟨firstSorted, pairwise_cons.2 ⟨?_, lastSorted⟩, ?_⟩
  · intro e member
    cases flag : r.allowDuplicates with
    | true => simpa [Reference.insertNew, flag] using order.asymm (highs e member)
    | false => simpa [Reference.insertNew, flag] using highs e member
  · intro a inFirst b member
    rcases mem_cons.1 member with rfl | inLast
    · cases flag : r.allowDuplicates with
      | true => simpa [Reference.insertNew, flag] using lows a inFirst
      | false => simpa [Reference.insertNew, flag] using unique flag a inFirst
    · exact across a inFirst b inLast

theorem linkNode_keeps (keeps : Keeps c r fresh) (order : StrictWeak r.compare) {t : Shape Nat}
    {path : List (Frame Nat)} {mapped : Mapped} (holds : c.links.Holds t) (redBlack : t.RedBlack)
    (reads : Reads c t r.elements) (whole : plug path .nil = t) (parts : r.elements = first ++ last)
    (beforeEq : before path = first.map Element.node) (afterEq : after path = last.map Element.node)
    (lows : ∀ e ∈ first, r.compare key e.key = false)
    (highs : ∀ e ∈ last, r.compare key e.key = true)
    (unique : r.allowDuplicates = false → ∀ e ∈ first, r.compare e.key key = true) :
    ∃ c', (c.setValue fresh (some (key, mapped))).linkNode (placeOf path) fresh = some c' ∧
      Keeps c' (r.insertNew fresh key mapped) (fresh + 1) := by
  have away : ∀ e ∈ r.elements, e.node ≠ fresh := fun e member =>
    Nat.ne_of_lt (keeps.below e member)
  have notIn : fresh ∉ t.inorder := by
    rw [reads.nodes]
    simpa using fun e member => away e member
  subst whole
  have counted := length_le_plug path .nil
  have counted' := reads.length
  obtain ⟨links, t', result, holds', redBlack', listed⟩ :=
    @insertRebalance_holds _ _ c.links path fresh c.fuel holds redBlack notIn
      (by rw [keeps.fuel_eq]; omega)
  refine ⟨{ c.setValue fresh (some (key, mapped)) with
    links := links, size := c.size + 1 }, ?_, ?_⟩
  · simp only [Container.linkNode, Container.setValue]
    change (insertRebalance c.fuel _ _).bind _ = _
    rw [result]
    rfl
  · have elements := @insertNew_eq _ _ _ r fresh key mapped first last parts lows highs
    refine ⟨⟨t', holds', redBlack', ?_, ?_⟩, ?_, keeps.comparator, keeps.allowDuplicates,
      fun _ => order, keeps.sorted_insertNew order parts lows highs unique, ?_⟩
    · rw [elements, listed, beforeEq, afterEq]
      simp
    · intro e member
      rw [elements] at member
      simp only [mem_append, mem_cons] at member
      have old : ∀ e ∈ r.elements, update c.value fresh (some (key, mapped)) e.node =
          some (e.key, e.mapped) := by
        intro e member
        rw [update_of_ne (away e member), reads.values e member]
      rcases member with inFirst | rfl | inLast
      · exact old e (by simp [parts, inFirst])
      · exact update_self _ _ _
      · exact old e (by simp [parts, inLast])
    · rw [elements, keeps.size, parts]
      simp
      omega
    · intro e member
      rw [elements] at member
      simp only [mem_append, mem_cons] at member
      have old : ∀ e ∈ r.elements, e.node < fresh + 1 := fun e member =>
        Nat.lt_succ_of_lt (keeps.below e member)
      rcases member with inFirst | rfl | inLast
      · exact old e (by simp [parts, inFirst])
      · simp
      · exact old e (by simp [parts, inLast])

theorem descend_keeps [ContainerTypes Key Other] (keeps : Keeps c r fresh)
    {argument : KeyValue Key Other} (takes : r.Takes argument) :
    (∃ e ∈ r.elements, c.descend argument c.fuel c.links.root none = some (.found e.node) ∧
      r.occupant argument.construct = some e) ∨
    (∃ place, c.descend argument c.fuel c.links.root none = some (.free place) ∧
      r.occupant argument.construct = none ∧ ∀ mapped : Mapped,
        ∃ c', (c.setValue fresh (some (argument.construct, mapped))).linkNode place fresh =
            some c' ∧
          Keeps c' (r.insertNew fresh argument.construct mapped) (fresh + 1)) := by
  have order := takes.order
  generalize constructed : argument.construct = key
  obtain ⟨t, holds, redBlack, reads⟩ := keeps.tree
  have same := (@descents_congr _ _ _ c t none r.elements argument (.key key) holds.represented reads
    (by rw [keeps.comparator, ← constructed]; exact takes.less) c.fuel).1
    (by rw [keeps.comparator, keeps.allowDuplicates, ← constructed]; exact takes.greater) none
  have landed := @descend_eq _ _ _ c _ order t [] r.elements key c.fuel
    (congrArg Comparator.keys keeps.comparator) holds.represented reads (keeps.sorted.weak order)
    (by rw [keeps.fuel_eq]; omega)
  rw [← holds.rooted] at same landed
  rw [same]
  rcases landed with ⟨e, member, result, flag, notLess, notGreater⟩ |
    ⟨path, first, last, result, whole, parts, beforeEq, afterEq, lows, highs, unique⟩
  · refine .inl ⟨e, member, result, ?_⟩
    rw [keeps.allowDuplicates] at flag
    obtain ⟨low, equal, high, parts, lows, equals, highs⟩ := keeps.partition key
    have atMostOne := keeps.equal_le_one flag parts equals
    have inEqual : e ∈ equal := by
      rw [parts] at member
      simp only [mem_append] at member
      rcases member with inLow | inEqual | inHigh
      · rw [lows e inLow] at notGreater
        exact absurd notGreater (by simp)
      · exact inEqual
      · rw [highs e inHigh] at notLess
        exact absurd notLess (by simp)
    have only : equal = [e] := by
      match equal, inEqual, atMostOne with
      | [e'], inEqual, _ => rw [mem_singleton.1 inEqual]
    have skipLow : (low.find? fun e => r.equivalent e.key key) = none := by
      rw [find?_eq_none]
      intro e' inLow
      simp [Reference.equivalent, lows e' inLow]
    rw [Reference.occupant, if_neg (by simp [flag]), parts, find?_append, skipLow, only]
    simp [Reference.equivalent, notLess, notGreater]
  · refine .inr ⟨placeOf path, result, ?_, fun mapped => ?_⟩
    · rw [Reference.occupant]
      split
      · rfl
      · next notFlag =>
          rw [find?_eq_none]
          intro e member
          rw [parts] at member
          rcases mem_append.1 member with inFirst | inLast
          · simp [Reference.equivalent,
              unique (by rw [keeps.allowDuplicates]; simpa using notFlag) e inFirst]
          · simp [Reference.equivalent, highs e inLast]
    · rw [keeps.allowDuplicates] at unique
      exact keeps.linkNode_keeps order holds redBlack reads whole parts
        (by simpa [before] using beforeEq) (by simpa [after] using afterEq) lows highs unique

/-- The address that is free after an insertion. -/
def freeAfter (fresh : Nat) (inserted : Bool) : Nat :=
  if inserted then fresh + 1 else fresh

/-- A value at an address that no element has does not matter. -/
theorem setValue_fresh (keeps : Keeps c r fresh) (value : Option (Key × Mapped)) :
    Keeps (c.setValue fresh value) r fresh := by
  obtain ⟨t, holds, redBlack, nodes, values⟩ := keeps.tree
  refine { keeps with tree := ⟨t, holds, redBlack, nodes, fun e member => ?_⟩ }
  have apart : e.node ≠ fresh := Nat.ne_of_lt (keeps.below e member)
  exact (update_of_ne apart _ _).trans (values e member)

section

variable [ContainerTypes Key Other] {argument : KeyValue Key Other}

theorem tryEmplace_keeps (keeps : Keeps c r fresh) (takes : r.Takes argument) (mapped : Mapped) :
    ∃ c', c.tryEmplace fresh argument mapped =
        some (c', (r.insert fresh argument.construct mapped).2) ∧
      Keeps c' (r.insert fresh argument.construct mapped).1
        (freeAfter fresh (r.insert fresh argument.construct mapped).2.2) := by
  rcases keeps.descend_keeps takes with ⟨e, member, result, occupied⟩ |
    ⟨place, result, vacant, linked⟩
  · refine ⟨c, ?_, ?_⟩
    · simp [Container.tryEmplace, result, Reference.insert, occupied]
    · simpa [Reference.insert, occupied, freeAfter] using keeps
  · obtain ⟨c', link, keeps'⟩ := linked mapped
    refine ⟨c', ?_, ?_⟩
    · simp [Container.tryEmplace, result, link, Reference.insert, vacant]
    · simpa [Reference.insert, vacant, freeAfter] using keeps'

/-- The candidate of `emplace` has its key before the search, whatever that was made of. -/
theorem emplace_keeps (keeps : Keeps c r fresh) (order : StrictWeak r.compare)
    (argument : KeyValue Key Other) (mapped : Mapped) :
    ∃ c', c.emplace fresh argument mapped =
        some (c', (r.insert fresh argument.construct mapped).2) ∧
      Keeps c' (r.insert fresh argument.construct mapped).1
        (freeAfter fresh (r.insert fresh argument.construct mapped).2.2) := by
  generalize constructed : argument.construct = key
  have built := keeps.setValue_fresh (some (key, mapped))
  have candidateKey : (c.setValue fresh (some (key, mapped))).keyOf fresh = some key := by
    simp [Container.keyOf, Container.setValue]
  rcases built.descend_keeps (r.takes_key order key) with
    ⟨e, member, result, occupied⟩ | ⟨place, result, vacant, linked⟩
  · rw [KeyValue.construct] at occupied
    refine ⟨(c.setValue fresh (some (key, mapped))).setValue fresh none, ?_, ?_⟩
    · simp [Container.emplace, constructed, candidateKey, result, Reference.insert, occupied]
    · simpa [Reference.insert, occupied, freeAfter] using built.setValue_fresh none
  · rw [KeyValue.construct] at vacant
    obtain ⟨c', link, keeps'⟩ := linked mapped
    have again : (c.setValue fresh (some (key, mapped))).setValue fresh (some (key, mapped)) =
        c.setValue fresh (some (key, mapped)) := by
      simp [Container.setValue]
    rw [KeyValue.construct, again] at link
    refine ⟨c', ?_, ?_⟩
    · simp [Container.emplace, constructed, candidateKey, result, link, Reference.insert, vacant]
    · simpa [Reference.insert, vacant, freeAfter, KeyValue.construct] using keeps'

end

end Keeps

end Aburi.Adinkra
