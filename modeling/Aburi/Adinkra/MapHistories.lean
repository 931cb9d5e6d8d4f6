import Aburi.Adinkra.MapOperations

/-!
# Histories of containers

The containers of a program and the lists they stand for, through any sequence of
calls.  An iterator that was made before a `swap` or a move still names the container
that made it, and the loop that erases a range compares that name: the range is only
found to be at its end if its last iterator names the container it is erased from.

An insertion looks for the place of its argument and not of the key that the new node
gets, and a container that was moved from is left with what remained of its comparator.
-/

namespace Aburi.Adinkra

open Lib List Option

open Container (Iterator)

variable {Name Key Other Mapped : Type}

namespace Reference

variable {r : Reference Key Other Mapped}

/-- Two iterators of which the second can be reached from the first. -/
def IsRange (r : Reference Key Other Mapped) (first last : Option Nat) : Prop :=
  ∃ before middle after, r.elements = before ++ (middle ++ after) ∧
    first = (middle ++ after).head?.map Element.node ∧ last = after.head?.map Element.node

theorem takeWhile_ne {front back : List (Element Key Mapped)}
    (distinct : ((front ++ back).map Element.node).Nodup) :
    (front ++ back).takeWhile
        (fun e => decide (some e.node ≠ back.head?.map Element.node)) = front ∧
      (front ++ back).dropWhile
        (fun e => decide (some e.node ≠ back.head?.map Element.node)) = back := by
  have passed : ∀ e ∈ front, decide (some e.node ≠ back.head?.map Element.node) = true := by
    intro e member
    rw [decide_eq_true_eq]
    cases back with
    | nil => simp
    | cons e' back =>
      intro same
      have sameNode : e.node = e'.node := by simpa using same
      rw [map_append, nodup_append] at distinct
      exact distinct.2.2 _ (mem_map_of_mem member) e'.node (by simp) sameNode
  rw [takeWhile_append_of_pos passed, dropWhile_append_of_pos passed]
  cases back with
  | nil | cons e' back => simp

theorem eraseRange_eq {front middle back : List (Element Key Mapped)}
    (distinct : (r.elements.map Element.node).Nodup)
    (split : r.elements = front ++ (middle ++ back)) :
    r.eraseRange ((middle ++ back).head?.map Element.node) (back.head?.map Element.node) =
      { r with elements := front ++ back } := by
  rw [split] at distinct
  have outer := takeWhile_ne distinct
  have inner := @takeWhile_ne _ _ middle back (by
    rw [map_append, nodup_append] at distinct
    exact distinct.2.1)
  rw [eraseRange, elementsBefore, elementsFrom, split, outer.1, outer.2, inner.2]

theorem following_eq {front back : List (Element Key Mapped)} {e : Element Key Mapped}
    (distinct : (r.elements.map Element.node).Nodup) (split : r.elements = front ++ e :: back) :
    r.following (some e.node) = back.head?.map Element.node := by
  rw [split] at distinct
  have outer := (takeWhile_ne distinct).2
  rw [head?_cons, map_some] at outer
  rw [following, elementsFrom, split, outer, tail_cons]

end Reference

/-- The containers hold the lists. -/
structure Refines (w : World Name Key Other Mapped) (l : ReferenceWorld Name Key Other Mapped) : Prop where
  next : w.next = l.next
  keeps : ∀ name, Keeps (w.containers name) (l.lists name) w.next

/-- What the callers owe: an iterator points to an element of the container, and the
ends of a range are in this order. -/
def Valid (l : ReferenceWorld Name Key Other Mapped) : Call Name Key Other Mapped → Prop
  | .erase this position => ∃ e ∈ (l.lists this).elements, position.node = some e.node
  | .eraseRange this first last => (l.lists this).IsRange first.node last.node
  | _ => True

/-- What the calls need: insertions compare their argument as its key, and with an
ordering; the iterators of a range name the container as its loop needs it. -/
def Meets [ContainerTypes Key Other] (l : ReferenceWorld Name Key Other Mapped) :
    Call Name Key Other Mapped → Prop
  | .insert this value => (l.lists this).Takes value.1
  | .emplace this _ _ => StrictWeak (l.lists this).compare
  | .tryEmplace this key _ | .insertOrAssign this key _ => (l.lists this).Takes key
  | .merge this source =>
    this ≠ source → (l.lists source).elements ≠ [] → StrictWeak (l.lists this).compare
  | .eraseRange this first last =>
    (first.node ≠ last.node → last.owner = this) ∧
      (first.node = last.node → first.owner = last.owner)
  | _ => True

variable [DecidableEq Name] [ContainerTypes Key Other]

variable {c : Container Key Other Mapped}

namespace Refines

omit [ContainerTypes Key Other]

variable {w : World Name Key Other Mapped} {l : ReferenceWorld Name Key Other Mapped}

theorem set (refines : Refines w l) (this : Name) {r : Reference Key Other Mapped} {next : Nat}
    (keeps : Keeps c r next) (later : w.next ≤ next) :
    Refines { w.setContainer this c with next := next } { l.setList this r with next := next } where
  next := rfl
  keeps name := by
    by_cases same : name = this
    · subst same
      simpa [World.setContainer, ReferenceWorld.setList] using keeps
    · simpa [World.setContainer, ReferenceWorld.setList, same] using (refines.keeps name).mono later

theorem set_same (refines : Refines w l) (this : Name) {r : Reference Key Other Mapped}
    (keeps : Keeps c r w.next) :
    Refines (w.setContainer this c) (l.setList this r) := by
  have result := refines.set this keeps (Nat.le_refl _)
  refine ⟨refines.next, fun name => result.keeps name⟩

theorem placed (refines : Refines w l) (this : Name) {result : Reference Key Other Mapped × Nat × Bool}
    (keeps : Keeps c result.1 (Keeps.freeAfter w.next result.2.2)) :
    (w.placed this (c, result.2)).2 = (l.placed this result).2 ∧
      Refines (w.placed this (c, result.2)).1 (l.placed this result).1 := by
  obtain ⟨r, node, inserted⟩ := result
  refine ⟨rfl, ?_⟩
  have later : w.next ≤ Keeps.freeAfter w.next inserted := by
    cases inserted <;> simp [Keeps.freeAfter]
  have set := refines.set this keeps later
  refine ⟨?_, set.keeps⟩
  simp only [World.placed, ReferenceWorld.placed, refines.next]

end Refines

theorem call_refines {w : World Name Key Other Mapped} {l : ReferenceWorld Name Key Other Mapped}
    (refines : Refines w l) {call : Call Name Key Other Mapped} (valid : Valid l call)
    (meets : Meets l call) :
    ∃ w', w.call call = some (w', (l.call call).2) ∧ Refines w' (l.call call).1 := by
  have same := refines.next
  cases call with
  | insert this value =>
    obtain ⟨c', result, keeps⟩ := (refines.keeps this).tryEmplace_keeps meets value.2
    obtain ⟨answer, refines'⟩ := refines.placed this keeps
    rw [same] at answer refines' result
    refine ⟨_, ?_, refines'⟩
    simp [World.call, Container.insert, same, result, ReferenceWorld.call, ← answer]
  | emplace this key mapped =>
    obtain ⟨c', result, keeps⟩ := (refines.keeps this).emplace_keeps meets key mapped
    obtain ⟨answer, refines'⟩ := refines.placed this keeps
    rw [same] at answer refines' result
    refine ⟨_, ?_, refines'⟩
    simp [World.call, same, result, ReferenceWorld.call, ← answer]
  | tryEmplace this key mapped =>
    obtain ⟨c', result, keeps⟩ := (refines.keeps this).tryEmplace_keeps meets mapped
    obtain ⟨answer, refines'⟩ := refines.placed this keeps
    rw [same] at answer refines' result
    refine ⟨_, ?_, refines'⟩
    simp [World.call, same, result, ReferenceWorld.call, ← answer]
  | insertOrAssign this key mapped =>
    obtain ⟨c', result, keeps⟩ := (refines.keeps this).insertOrAssign_keeps meets mapped
    obtain ⟨answer, refines'⟩ := refines.placed this keeps
    rw [same] at answer refines' result
    refine ⟨_, ?_, refines'⟩
    simp [World.call, same, result, ReferenceWorld.call, ← answer]
  | erase this position =>
    obtain ⟨e, member, node⟩ := valid
    obtain ⟨front, back, split⟩ := append_of_mem member
    obtain ⟨c', result, keeps⟩ := (refines.keeps this).erase_keeps split
    have distinct := (refines.keeps this).nodup
    have following := Reference.following_eq distinct split
    have range := @Reference.eraseRange_eq _ _ _ _ front [e] back distinct split
    simp only [singleton_append, head?_cons, map_some] at range
    refine ⟨w.setContainer this c', ?_, ?_⟩
    · simp [World.call, node, result, ReferenceWorld.call, following]
    · simp only [ReferenceWorld.call, node, following, range]
      exact refines.set_same this keeps
  | eraseRange this first last =>
    obtain ⟨front, middle, back, split, start, stop⟩ := valid
    have kept := refines.keeps this
    have enough : middle.length < (w.containers this).fuel := by
      rw [kept.fuel_eq, split]
      simp only [length_append]
      omega
    obtain ⟨c', result, keeps⟩ :=
      kept.eraseRangeLoop_keeps split start stop meets.1 meets.2 enough
    have range := Reference.eraseRange_eq kept.nodup split
    refine ⟨w.setContainer this c', ?_, ?_⟩
    · simp [World.call, Container.eraseRange, result, ReferenceWorld.call]
    · simp only [ReferenceWorld.call, start, stop, range]
      exact refines.set_same this keeps
  | eraseKey this key =>
    obtain ⟨c', result, keeps⟩ := (refines.keeps this).eraseKey_keeps key
    refine ⟨w.setContainer this c', ?_, refines.set_same this keeps⟩
    simp [World.call, result, ReferenceWorld.call]
  | merge this source =>
    by_cases self : this = source
    · exact ⟨w, by simp [World.call, ReferenceWorld.call, self],
        by simpa [ReferenceWorld.call, self] using refines⟩
    · obtain ⟨source', target', result, targetKeeps, sourceKeeps, later⟩ :=
        (refines.keeps source).merge_keeps (refines.keeps this) (meets self)
      rw [same] at result targetKeeps sourceKeeps later
      have first := refines.set this targetKeeps (by rw [same]; exact later)
      have second := first.set source sourceKeeps (Nat.le_refl _)
      simp only [ReferenceWorld.call, if_neg self]
      refine ⟨_, ?_, second⟩
      simp only [World.call, if_neg self, same, result, bind_eq_bind, bind_some]
      rfl
  | copy this other =>
    by_cases self : this = other
    · exact ⟨w, by simp [World.call, ReferenceWorld.call, self],
        by simpa [ReferenceWorld.call, self] using refines⟩
    · obtain ⟨c', result, keeps⟩ := @Keeps.copyOf_keeps _ _ _ _ _ w.next _ _ (refines.keeps other)
      obtain ⟨cleared, clear, -⟩ := (refines.keeps this).clear_keeps
      have set := refines.set this keeps (Nat.le_add_right _ _)
      rw [same] at result set
      simp only [ReferenceWorld.call, if_neg self]
      refine ⟨_, ?_, set⟩
      simp only [World.call, if_neg self, same, result, clear, bind_eq_bind,
        bind_some]
  | move this other =>
    by_cases self : this = other
    · exact ⟨w, by simp [World.call, ReferenceWorld.call, self],
        by simpa [ReferenceWorld.call, self] using refines⟩
    · obtain ⟨cleared, clear, -⟩ := (refines.keeps this).clear_keeps
      have first := refines.set_same this (refines.keeps other)
      have second := first.set_same other
        (@Keeps.rootless_keeps _ _ _ _ _ _ (refines.keeps other) (w.containers other).movedFrom _
          rfl rfl (congrArg ContainerTypes.movedFrom (refines.keeps other).comparator) rfl)
      simp only [ReferenceWorld.call, if_neg self]
      refine ⟨_, ?_, second⟩
      simp only [World.call, if_neg self, clear, bind_eq_bind, bind_some]
  | swap this other =>
    have first := refines.set_same this (refines.keeps other)
    exact ⟨_, rfl, first.set_same other (refines.keeps this)⟩
  | clear this =>
    obtain ⟨c', result, keeps⟩ := (refines.keeps this).clear_keeps
    refine ⟨w.setContainer this c', ?_, refines.set_same this keeps⟩
    simp [World.call, result, ReferenceWorld.call]

def World.run (w : World Name Key Other Mapped) :
    List (Call Name Key Other Mapped) → Option (World Name Key Other Mapped × List (Answer Name))
  | [] => some (w, [])
  | call :: rest => do
      let (w, answer) ← w.call call
      let (w, answers) ← w.run rest
      some (w, answer :: answers)

def ReferenceWorld.run (l : ReferenceWorld Name Key Other Mapped) :
    List (Call Name Key Other Mapped) → ReferenceWorld Name Key Other Mapped × List (Answer Name)
  | [] => (l, [])
  | call :: rest =>
    let (l, answer) := l.call call
    let (l, answers) := l.run rest
    (l, answer :: answers)

/-- Every call of a history is as `demand` asks in the state it is made in. -/
def AtEachCall (demand : ReferenceWorld Name Key Other Mapped → Call Name Key Other Mapped → Prop)
    (l : ReferenceWorld Name Key Other Mapped) : List (Call Name Key Other Mapped) → Prop
  | [] => True
  | call :: rest => demand l call ∧ AtEachCall demand (l.call call).1 rest

theorem run_refines {w : World Name Key Other Mapped} {l : ReferenceWorld Name Key Other Mapped}
    (refines : Refines w l) {calls : List (Call Name Key Other Mapped)}
    (history : AtEachCall Valid l calls) (meets : AtEachCall Meets l calls) :
    ∃ w', w.run calls = some (w', (l.run calls).2) ∧ Refines w' (l.run calls).1 := by
  induction calls generalizing w l with
  | nil => exact ⟨w, rfl, refines⟩
  | cons call rest ih =>
    obtain ⟨valid, history⟩ := history
    obtain ⟨met, meets⟩ := meets
    obtain ⟨w₁, first, refines₁⟩ := call_refines refines valid met
    obtain ⟨w', last, refines'⟩ := ih refines₁ history meets
    exact ⟨w', by simp [World.run, first, last, ReferenceWorld.run], refines'⟩

/-- What a container shows is what its list shows; a lookup may take any argument that
compares with the elements as some key does. -/
structure Agrees (c : Container Key Other Mapped) (r : Reference Key Other Mapped) : Prop where
  iterate : c.iterate = some (r.elements.map fun e => (e.key, e.mapped))
  sorted : r.Sorted
  size : c.size = r.elements.length
  find : ∀ argument key, r.ComparesAs argument key →
    (c.find argument = some none ∧ ∀ e ∈ r.elements, r.equivalent e.key key = false) ∨
      ∃ e ∈ r.elements, c.find argument = some (some e.node) ∧ r.equivalent e.key key = true
  lowerBound : ∀ argument key, r.ComparesAs argument key → c.lowerBound argument =
    some ((r.elements.find? fun e => !r.compare e.key key).map Element.node)
  upperBound : ∀ argument key, r.ComparesAs argument key → c.upperBound argument =
    some ((r.elements.find? fun e => r.compare key e.key).map Element.node)
  equalRange : ∀ argument key, r.ComparesAs argument key → c.equalRange argument =
    some ((r.elements.find? fun e => !r.compare e.key key).map Element.node,
      (r.elements.find? fun e => r.compare key e.key).map Element.node)
  count : ∀ argument key, r.ComparesAs argument key →
    c.count argument = some (r.elements.countP fun e => r.equivalent e.key key)
  contains : ∀ argument key, r.ComparesAs argument key →
    c.contains argument = some (r.elements.any fun e => r.equivalent e.key key)

omit [ContainerTypes Key Other] in
theorem Keeps.agrees {r : Reference Key Other Mapped} {fresh : Nat} (keeps : Keeps c r fresh) :
    Agrees c r where
  iterate := keeps.iterate_eq
  sorted := keeps.sorted
  size := keeps.size
  find _ _ := keeps.find_eq
  lowerBound _ _ := keeps.lowerBound_eq
  upperBound _ _ := keeps.upperBound_eq
  equalRange argument key compares := by
    simp [Container.equalRange, keeps.lowerBound_eq compares, keeps.upperBound_eq compares]
  count _ _ := keeps.count_eq
  contains _ _ := keeps.contains_eq

/-- Empty containers, each with its comparator; `multi` tells which are multimaps. -/
def emptyWorld (comparator : Name → Comparator Key Other) (multi : Name → Bool) :
    World Name Key Other Mapped where
  containers name := .empty (comparator name) (multi name)
  next := 0

def emptyLists (comparator : Name → Comparator Key Other) (multi : Name → Bool) :
    ReferenceWorld Name Key Other Mapped where
  lists name := ⟨[], comparator name, multi name⟩
  next := 0

/-- After any history of calls that meet their condition, every container shows its
sorted list, and every call has answered as the lists do. -/
theorem containers_are_sorted_lists (comparator : Name → Comparator Key Other)
    (multi : Name → Bool) (calls : List (Call Name Key Other Mapped))
    (history : AtEachCall Valid (emptyLists comparator multi) calls)
    (meets : AtEachCall Meets (emptyLists comparator multi) calls) :
    ∃ w', (emptyWorld comparator multi).run calls =
        some (w', ((emptyLists comparator multi).run calls).2) ∧
      ∀ name, Agrees (w'.containers name)
        (((emptyLists comparator multi).run calls).1.lists name) := by
  have start : Refines (emptyWorld comparator multi : World Name Key Other Mapped)
      (emptyLists comparator multi) :=
    ⟨rfl, fun name => Keeps.empty (comparator name) (multi name) 0⟩
  obtain ⟨w', result, refines⟩ := run_refines start history meets
  exact ⟨w', result, fun name => (refines.keeps name).agrees⟩

/-- Bytes, constructed from numbers by their remainder, and the order of numbers for
both. -/
instance : ContainerTypes (Fin 256) Nat where
  construct value := Fin.ofNat 256 value
  movedFrom comparator := comparator

def lessThan : Comparator (Fin 256) Nat where
  keys a b := decide (a < b)
  otherKey a b := decide (a < b.val)
  keyOther a b := decide (a.val < b)

theorem lessThan_strictWeak : StrictWeak lessThan.keys where
  irrefl a := by simp [lessThan]
  trans a b c := by
    simp only [lessThan, decide_eq_true_eq]
    omega
  incomparable a b c := by
    simp only [lessThan, decide_eq_false_iff_not]
    omega

/-- Two elements in the container `false`, and the range of the first of them erased. -/
def rangeCalls : List (Call Bool (Fin 256) Nat Nat) :=
  [.insert false (.key 2, 20), .insert false (.other 1, 10),
    .eraseRange false ⟨false, some 1⟩ ⟨false, some 0⟩]

theorem rangeCalls_sorted_list :
    ∃ w', (emptyWorld (fun _ => lessThan) fun _ => false).run rangeCalls =
        some (w', ((emptyLists (fun _ => lessThan) fun _ => false).run rangeCalls).2) ∧
      (w'.containers false).iterate = some [(2, 20)] := by
  have history : AtEachCall Valid (emptyLists (fun _ => lessThan) fun _ => false) rangeCalls :=
    ⟨trivial, trivial, ⟨[], [⟨1, 1, 10⟩], [⟨0, 2, 20⟩], rfl, rfl, rfl⟩, trivial⟩
  have meets : AtEachCall Meets (emptyLists (fun _ => lessThan) fun _ => false) rangeCalls :=
    ⟨Reference.takes_key _ lessThan_strictWeak _,
      ⟨lessThan_strictWeak, by decide, by decide⟩, ⟨fun _ => rfl, fun _ => rfl⟩, trivial⟩
  obtain ⟨w', result, agrees⟩ := containers_are_sorted_lists _ _ rangeCalls history meets
  exact ⟨w', result, (agrees false).iterate⟩

/-- The same range, erased after the elements were swapped into the container `true`. -/
def swappedCalls : List (Call Bool (Fin 256) Nat Nat) :=
  [.insert false (.key 2, 20), .insert false (.key 1, 10), .swap false true,
    .eraseRange true ⟨false, some 1⟩ ⟨false, some 0⟩]

/-- The loop erases past the end of the range and then follows the null link, where
the list keeps its second element. -/
theorem swapped_range_runs_over :
    AtEachCall Valid (emptyLists (fun _ => lessThan) fun _ => false) swappedCalls ∧
      (((emptyLists (fun _ => lessThan) fun _ => false).run swappedCalls).1.lists
        true).elements.map (fun e => (e.key, e.mapped)) = [(2, 20)] ∧
      (emptyWorld (fun _ => lessThan) fun _ => false).run swappedCalls = none := by
  refine ⟨⟨trivial, trivial, trivial, ⟨[], [⟨1, 1, 10⟩], [⟨0, 2, 20⟩], rfl, rfl, rfl⟩,
    trivial⟩, rfl, rfl⟩

/-- The number 261 goes behind 10, and its node gets the key 5. -/
example : ((emptyWorld (fun _ => lessThan) fun _ => false).run
    [.insert false (.other 10, 0), .insert false (.other 261, 0)]).bind
      (fun result => (result.1.containers false).iterate) =
    some [((10 : Fin 256), (0 : Nat)), (5, 0)] := by
  decide

end Aburi.Adinkra
