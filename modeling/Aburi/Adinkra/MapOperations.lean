import Aburi.Adinkra.MapKeeps

/-!
# Assignment, removal, and operations on two containers

The remaining operations on containers that keep sorted lists.
-/

namespace Aburi.Adinkra

open Lib List Option Function

open Container (Iterator)

variable {Name Key Other Mapped : Type} {c : Container Key Other Mapped} {r : Reference Key Other Mapped}
  {fresh : Nat}

namespace Keeps

theorem assign_keeps (keeps : Keeps c r fresh) {e : Element Key Mapped}
    (member : e ∈ r.elements) (mapped : Mapped) :
    Keeps (c.setValue e.node (some (e.key, mapped))) (r.assign e.node mapped) fresh := by
  obtain ⟨t, holds, redBlack, nodes, values⟩ := keeps.tree
  have node_eq : ∀ e' : Element Key Mapped,
      (if e'.node = e.node then { e' with mapped := mapped } else e').node = e'.node := by
    intro e'
    split <;> rfl
  have key_eq : ∀ e' : Element Key Mapped,
      (if e'.node = e.node then { e' with mapped := mapped } else e').key = e'.key := by
    intro e'
    split <;> rfl
  refine { tree := ⟨t, holds, redBlack, ?_, ?_⟩, size := ?_, comparator := keeps.comparator,
           allowDuplicates := keeps.allowDuplicates, order := fun _ => keeps.strictWeak member,
           sorted := ?_, below := ?_ }
  · rw [nodes, Reference.assign, List.map_map]
    exact map_congr_left fun e' _ => (node_eq e').symm
  · intro assigned inAssigned
    obtain ⟨e', inElements, rfl⟩ := List.mem_map.1 inAssigned
    change update c.value e.node (some (e.key, mapped)) _ = _
    rw [node_eq, key_eq]
    have held := values e' inElements
    by_cases same : e'.node = e.node
    · rw [same, values e member] at held
      have sameKey : e.key = e'.key := (Prod.mk.inj (Option.some.inj held)).1
      rw [if_pos same, same, update_self, sameKey]
    · rw [if_neg same, update_of_ne same, held]
  · exact keeps.size.trans (length_map _).symm
  · rw [Reference.Sorted, Reference.assign, pairwise_map]
    refine List.Pairwise.imp ?_ keeps.sorted
    intro a b ordered
    simpa only [key_eq] using ordered
  · intro assigned inAssigned
    obtain ⟨e', inElements, rfl⟩ := List.mem_map.1 inAssigned
    rw [node_eq]
    exact keeps.below e' inElements

theorem insertOrAssign_keeps [ContainerTypes Key Other] (keeps : Keeps c r fresh)
    {argument : KeyValue Key Other} (takes : r.Takes argument) (mapped : Mapped) :
    ∃ c', c.insertOrAssign fresh argument mapped =
        some (c', (r.insertOrAssign fresh argument.construct mapped).2) ∧
      Keeps c' (r.insertOrAssign fresh argument.construct mapped).1
        (freeAfter fresh (r.insertOrAssign fresh argument.construct mapped).2.2) := by
  rcases keeps.descend_keeps takes with ⟨e, member, result, occupied⟩ |
    ⟨place, result, vacant, linked⟩
  · refine ⟨c.setValue e.node (some (e.key, mapped)), ?_, ?_⟩
    · simp [Container.insertOrAssign, Container.tryEmplace, result, keeps.value_eq member,
        Reference.insertOrAssign, occupied]
    · simpa [Reference.insertOrAssign, occupied, freeAfter] using keeps.assign_keeps member mapped
  · obtain ⟨c', link, keeps'⟩ := linked mapped
    refine ⟨c', ?_, ?_⟩
    · simp [Container.insertOrAssign, Container.tryEmplace, result, link,
        Reference.insertOrAssign, vacant]
    · simpa [Reference.insertOrAssign, vacant, freeAfter] using keeps'

theorem erase_keeps (keeps : Keeps c r fresh) {first last : List (Element Key Mapped)}
    {e : Element Key Mapped} (split : r.elements = first ++ e :: last) :
    ∃ c', c.erase e.node = some (c', last.head?.map Element.node) ∧
      Keeps c' { r with elements := first ++ last } fresh := by
  obtain ⟨t, holds, redBlack, reads⟩ := keeps.tree
  have order : t.inorder = first.map Element.node ++ e.node :: last.map Element.node := by
    rw [reads.nodes, split, map_append, map_cons]
  have counted := reads.length
  obtain ⟨links, t', result, holds', redBlack', order'⟩ :=
    @eraseRebalance_member _ _ c.links t c.fuel _ _ e.node holds redBlack
      (by rw [keeps.fuel_eq]; omega) order
  have inList : e ∈ r.elements := by simp [split]
  have smaller : ∀ e' ∈ first ++ last, e' ∈ r.elements := by
    intro e' member
    rw [split]
    simp only [mem_append, mem_cons] at member ⊢
    tauto
  have apart : ∀ e' ∈ first ++ last, e'.node ≠ e.node := by
    intro e' member same
    have distinct := holds.distinct
    rw [order] at distinct
    apply (nodup_cons.1 (nodup_middle.1 distinct)).1
    rw [← map_append, ← same]
    exact List.mem_map_of_mem member
  refine ⟨{ c with links := links, value := update c.value e.node none,
                   size := c.size - 1 }, ?_, ?_⟩
  · simp only [Container.erase, keeps.next_eq split, result, bind_eq_bind, bind_some]
    rfl
  · refine ⟨⟨t', holds', redBlack', ?_, fun e' member => ?_⟩, ?_, keeps.comparator,
      keeps.allowDuplicates, fun _ => keeps.strictWeak inList, ?_,
      fun e' member => keeps.below e' (smaller e' member)⟩
    · rw [order', map_append]
    · exact (update_of_ne (apart e' member) _ _).trans
        (reads.values e' (smaller e' member))
    · have size := keeps.size
      rw [split] at size
      simp only [length_append, length_cons] at size ⊢
      change c.size - 1 = _
      omega
    · refine List.Pairwise.sublist ?_ keeps.sorted
      rw [split]
      exact List.Sublist.append_left (sublist_cons_self e last) first

/-- The loop that erases from one element up to another. -/
theorem eraseEqualLoop_keeps {first middle last : List (Element Key Mapped)}
    (keeps : Keeps c r fresh) (split : r.elements = first ++ (middle ++ last)) {fuel : Nat}
    (removed : Nat) (enough : middle.length < fuel) :
    ∃ c', Container.eraseEqualLoop fuel c ((middle ++ last).head?.map Element.node)
        (last.head?.map Element.node) removed = some (c', removed + middle.length) ∧
      Keeps c' { r with elements := first ++ last } fresh := by
  induction middle generalizing c r fuel removed with
  | nil =>
    obtain _ | fuel := fuel
    · omega
    refine ⟨c, by simp [Container.eraseEqualLoop], ?_⟩
    rw [nil_append] at split
    rwa [← split]
  | cons e middle ih =>
    obtain _ | fuel := fuel
    · omega
    rw [List.cons_append] at split
    obtain ⟨c₁, erased, keeps₁⟩ := keeps.erase_keeps split
    obtain ⟨c', result, keeps'⟩ := ih keeps₁ rfl (removed + 1)
      (show middle.length < fuel by simpa using enough)
    refine ⟨c', ?_, keeps'⟩
    have different := keeps.head_ne split
    simp only [List.cons_append, head?_cons, map_some,
      Container.eraseEqualLoop, ne_eq, different, not_false_eq_true, if_true,
      bind_eq_bind, bind_some, erased, result, length_cons]
    congr 2
    omega

theorem eraseRangeLoop_keeps [DecidableEq Name] {first middle last : List (Element Key Mapped)}
    {this : Name} {from_ to_ : Iterator Name} (keeps : Keeps c r fresh)
    (split : r.elements = first ++ (middle ++ last)) {fuel : Nat}
    (start : from_.node = (middle ++ last).head?.map Element.node)
    (stop : to_.node = last.head?.map Element.node)
    (owned : from_.node ≠ to_.node → to_.owner = this)
    (sameOwner : from_.node = to_.node → from_.owner = to_.owner)
    (enough : middle.length < fuel) :
    ∃ c', Container.eraseRangeLoop this fuel c from_ to_ = some c' ∧
      Keeps c' { r with elements := first ++ last } fresh := by
  induction middle generalizing c r fuel from_ with
  | nil =>
    obtain _ | fuel := fuel
    · omega
    have same : from_ = to_ := by
      have sameNode : from_.node = to_.node := by rw [start, stop, nil_append]
      obtain ⟨owner, node⟩ := from_
      obtain ⟨owner', node'⟩ := to_
      simp only at sameNode
      subst sameNode
      rw [show owner = owner' from sameOwner rfl]
    refine ⟨c, by simp [Container.eraseRangeLoop, same], ?_⟩
    rw [nil_append] at split
    rwa [← split]
  | cons e middle ih =>
    obtain _ | fuel := fuel
    · omega
    rw [List.cons_append] at split
    rw [List.cons_append, head?_cons, map_some] at start
    obtain ⟨c₁, erased, keeps₁⟩ := keeps.erase_keeps split
    have different : from_.node ≠ to_.node := by
      rw [start, stop]
      exact keeps.head_ne split
    have owner : to_.owner = this := owned different
    obtain ⟨c', result, keeps'⟩ := @ih _ _
      ⟨this, (middle ++ last).head?.map Element.node⟩ keeps₁ rfl fuel rfl
      (fun _ => owner) (fun _ => owner.symm) (by simpa using enough)
    refine ⟨c', ?_, keeps'⟩
    have apart : from_ ≠ to_ := fun same => different (by rw [same])
    simp only [Container.eraseRangeLoop, ne_eq, apart, not_false_eq_true, if_true, start,
      bind_eq_bind, bind_some, erased, result]

theorem eraseKey_keeps (keeps : Keeps c r fresh) (key : Key) :
    ∃ c', c.eraseKey key = some (c', r.elements.countP fun e => r.equivalent e.key key) ∧
      Keeps c' (r.eraseKey key) fresh := by
  obtain ⟨low, equal, high, parts, lows, equals, highs⟩ := keeps.partition key
  obtain ⟨counted, filtered⟩ := countP_parts lows equals highs
  rw [← parts] at counted filtered
  have list : r.eraseKey key = { r with elements := low ++ high } := by
    rw [Reference.eraseKey, filtered]
  rw [Container.eraseKey, keeps.allowDuplicates, counted, list]
  by_cases flag : r.allowDuplicates = true
  · rw [if_pos flag]
    have shorter : equal.length < c.fuel := by
      rw [keeps.fuel_eq, parts]
      simp only [length_append]
      omega
    obtain ⟨c', result, keeps'⟩ := keeps.eraseEqualLoop_keeps parts 0 shorter
    refine ⟨c', ?_, keeps'⟩
    simp only [keeps.equalRange_eq (r.comparesAs_key key) parts lows equals highs,
      bind_eq_bind, bind_some, result, Nat.zero_add]
  · rw [if_neg flag]
    have atMostOne := keeps.equal_le_one (by simpa using flag) parts equals
    rcases keeps.find_eq (r.comparesAs_key key) with ⟨result, none⟩ | ⟨e, member, result, equivalent⟩
    · have zero : equal = [] := by
        rw [← length_eq_zero_iff, ← counted, countP_eq_zero]
        exact fun e member => by simp [none e member]
      subst zero
      refine ⟨c, by simp [result], ?_⟩
      rw [nil_append] at parts
      rwa [← parts]
    · have inEqual : e ∈ equal := by
        rw [parts] at member
        simp only [mem_append] at member
        rcases member with inLow | inEqual | inHigh
        · simp [Reference.equivalent, lows e inLow] at equivalent
        · exact inEqual
        · simp [Reference.equivalent, highs e inHigh] at equivalent
      have only : equal = [e] := by
        cases equal with
        | nil => cases inEqual
        | cons e' rest =>
          rw [length_cons] at atMostOne
          rw [length_eq_zero_iff.1 (by omega : rest.length = 0)] at inEqual ⊢
          rw [mem_singleton.1 inEqual]
      subst only
      obtain ⟨c', erased, keeps'⟩ := keeps.erase_keeps
        (show r.elements = low ++ e :: high by simpa using parts)
      exact ⟨c', by simp [result, erased], keeps'⟩

theorem destroySubtree_some {t : Shape Nat} {parent : Option Nat} {fuel : Nat}
    (represented : Represents c.links.node t parent) (enough : t.inorder.length < fuel) :
    ∃ c', Container.destroySubtree fuel c t.root = some c' ∧ c'.links = c.links ∧
      c'.comparator = c.comparator ∧ c'.allowDuplicates = c.allowDuplicates := by
  induction t generalizing c parent fuel with
  | nil =>
    obtain _ | fuel := fuel
    · omega
    exact ⟨c, rfl, rfl, rfl, rfl⟩
  | node red left addr right leftIh rightIh =>
    obtain _ | fuel := fuel
    · omega
    simp only [Shape.inorder, length_append, length_cons] at enough
    obtain ⟨here, inLeft, inRight⟩ := represented
    obtain ⟨c₁, first, links₁, comparator₁, flag₁⟩ :=
      leftIh inLeft (show left.inorder.length < fuel by omega)
    rw [← links₁] at inRight here
    obtain ⟨c₂, second, links₂, comparator₂, flag₂⟩ :=
      rightIh inRight (show right.inorder.length < fuel by omega)
    refine ⟨c₂.setValue addr none, ?_, links₂.trans links₁, comparator₂.trans comparator₁,
      flag₂.trans flag₁⟩
    have there : c.links.node addr = ⟨parent, left.root, right.root, red⟩ := by
      rw [← links₁, here]
    simp [Container.destroySubtree, there, first, here, second]

/-- A container without a root keeps the empty list, with any comparator. -/
theorem rootless_keeps (keeps : Keeps c r fresh) {c' : Container Key Other Mapped}
    {comparator : Comparator Key Other} (root : c'.links.root = none) (size : c'.size = 0)
    (same : c'.comparator = comparator) (flag : c'.allowDuplicates = c.allowDuplicates) :
    Keeps c' { r with elements := [], comparator := comparator } fresh where
  tree := ⟨.nil, ⟨root, trivial, .nil⟩, ⟨rfl, 0, rfl⟩, ⟨rfl, by simp⟩⟩
  size := size
  comparator := same
  allowDuplicates := flag.trans keeps.allowDuplicates
  order := fun some => absurd rfl some
  sorted := .nil
  below := by simp

theorem clear_keeps (keeps : Keeps c r fresh) :
    ∃ c', c.clear = some c' ∧ Keeps c' { r with elements := [] } fresh := by
  obtain ⟨t, holds, -, reads⟩ := keeps.tree
  obtain ⟨c', result, -, same, flag⟩ := @destroySubtree_some _ _ _ c t none c.fuel
    holds.represented (by rw [reads.length, keeps.fuel_eq]; omega)
  rw [← holds.rooted] at result
  refine ⟨{ c' with links := { c'.links with root := none }, size := 0 }, ?_,
    keeps.rootless_keeps rfl rfl (same.trans keeps.comparator) flag⟩
  simp [Container.clear, result]

/-- An element that is not less than any other is inserted at the end. -/
theorem insert_at_end (order : StrictWeak r.compare) {e : Element Key Mapped} {fresh : Nat}
    (greatest : ∀ a ∈ r.elements,
      if r.allowDuplicates then r.compare e.key a.key = false
      else r.compare a.key e.key = true) :
    r.insert fresh e.key e.mapped =
      ({ r with elements := r.elements ++ [⟨fresh, e.key, e.mapped⟩] }, fresh, true) := by
  have notLess : ∀ a ∈ r.elements, r.compare e.key a.key = false := by
    intro a member
    have ordered := greatest a member
    split at ordered
    · exact ordered
    · exact order.asymm ordered
  have vacant : r.occupant e.key = none := by
    rw [Reference.occupant]
    split
    · rfl
    · next notFlag =>
        rw [find?_eq_none]
        intro a member
        have ordered := greatest a member
        rw [if_neg notFlag] at ordered
        simp [Reference.equivalent, ordered]
  have elements := @insertNew_eq _ _ _ r fresh e.key e.mapped r.elements [] (by simp) notLess
    (by simp)
  simp only [Reference.insert, vacant]
  rw [← elements]
  rfl

section

variable [ContainerTypes Key Other]

theorem insertRange_keeps {source target : Container Key Other Mapped}
    {first last : List (Element Key Mapped)}
    {done : List (Element Key Mapped)} {start : Nat} (keeps : Keeps source r start)
    (split : r.elements = first ++ last) (copied : done.map Element.key = first.map Element.key)
    (kept : Keeps target { r with elements := done } fresh) {fuel : Nat}
    (enough : last.length < fuel) :
    ∃ target', Container.insertRange source fuel target fresh (last.head?.map Element.node) =
        some (target', fresh + last.length) ∧
      Keeps target' { r with elements := done ++ Reference.relabel fresh last }
        (fresh + last.length) := by
  induction last generalizing target first done fresh fuel with
  | nil =>
    obtain _ | fuel := fuel
    · omega
    exact ⟨target, rfl, by simpa [Reference.relabel] using kept⟩
  | cons e last ih =>
    obtain _ | fuel := fuel
    · omega
    have following := keeps.next_eq split
    have value := keeps.value_eq (show e ∈ r.elements by simp [split])
    have greatest : ∀ a ∈ done,
        if r.allowDuplicates then r.compare e.key a.key = false
        else r.compare a.key e.key = true := by
      intro a member
      have inKeys : a.key ∈ first.map Element.key := by
        rw [← copied]
        exact List.mem_map_of_mem member
      obtain ⟨a', inFirst, sameKey⟩ := List.mem_map.1 inKeys
      have sorted := keeps.sorted
      rw [Reference.Sorted, split] at sorted
      have ordered := (pairwise_append.1 sorted).2.2 a' inFirst e (by simp)
      rwa [sameKey] at ordered
    have order := keeps.strictWeak (show e ∈ r.elements by simp [split])
    have inserted := @insert_at_end _ _ _ { r with elements := done } order e fresh greatest
    obtain ⟨target₁, placed, keeps₁⟩ :=
      kept.tryEmplace_keeps (Reference.takes_key { r with elements := done } order e.key) e.mapped
    rw [KeyValue.construct, inserted] at placed keeps₁
    obtain ⟨target', result, keeps'⟩ := @ih (fresh + 1) target₁
      (first ++ [e]) (done ++ [⟨fresh, e.key, e.mapped⟩]) (by simp [split]) (by simp [copied])
      (by simpa [freeAfter] using keeps₁) fuel (by simpa using enough)
    have counted : fresh + 1 + last.length = fresh + (e :: last).length := by
      simp only [length_cons]
      omega
    rw [counted] at result keeps'
    refine ⟨target', ?_, by simpa [Reference.relabel] using keeps'⟩
    simp [Container.insertRange, value, Container.insert, placed, following, result]

theorem copyOf_keeps {start : Nat} (keeps : Keeps c r start) :
    ∃ c', c.copyOf fresh = some (c', fresh + r.elements.length) ∧
      Keeps c' { r with elements := Reference.relabel fresh r.elements }
        (fresh + r.elements.length) := by
  have begun := keeps.begin_eq
  have start' : Keeps (Container.empty c.comparator c.allowDuplicates : Container Key Other Mapped)
      { r with elements := [] } fresh := by
    rw [keeps.comparator, keeps.allowDuplicates]
    exact Keeps.empty _ _ fresh
  obtain ⟨c', result, keeps'⟩ := @insertRange_keeps _ _ _ r fresh _ c _ [] r.elements [] start keeps
    rfl rfl start' c.fuel (by rw [keeps.fuel_eq]; omega)
  exact ⟨c', by simp [Container.copyOf, begun, result], keeps'⟩

section

variable {source target : Container Key Other Mapped} {t : Reference Key Other Mapped}
  {kept last : List (Element Key Mapped)}
  (sourceKeeps : Keeps source { r with elements := kept ++ last } fresh)
  (targetKeeps : Keeps target t fresh)
include sourceKeeps targetKeeps

theorem mapMergeLoop_keeps {fuel : Nat} (order : last ≠ [] → StrictWeak t.compare)
    (enough : last.length < fuel) :
    ∃ source' target', Container.mapMergeLoop fuel target source fresh
        (last.head?.map Element.node) = some (target', source', (t.mergeElements fresh last).2.2) ∧
      Keeps target' (t.mergeElements fresh last).1 (t.mergeElements fresh last).2.2 ∧
      Keeps source' { r with elements := kept ++ (t.mergeElements fresh last).2.1 }
        (t.mergeElements fresh last).2.2 ∧ fresh ≤ (t.mergeElements fresh last).2.2 := by
  induction last generalizing source target t kept fresh fuel with
  | nil =>
    obtain _ | fuel := fuel
    · omega
    exact ⟨source, target, rfl, targetKeeps, sourceKeeps, Nat.le_refl _⟩
  | cons e last ih =>
    obtain _ | fuel := fuel
    · omega
    have shorter : last.length < fuel := by simpa using enough
    have value := sourceKeeps.value_eq (show e ∈ kept ++ e :: last by simp)
    replace order := order (cons_ne_nil e last)
    obtain ⟨target₁, placed, keeps₁⟩ :=
      targetKeeps.tryEmplace_keeps (t.takes_key order e.key) e.mapped
    rw [KeyValue.construct] at placed keeps₁
    cases occupied : t.occupant e.key with
    | some other =>
      have following := sourceKeeps.next_eq (show _ = kept ++ e :: last from rfl)
      simp only [Reference.insert, occupied] at placed keeps₁
      obtain ⟨source', target', result, targetKeeps', sourceKeeps', later⟩ :=
        @ih fresh source target₁ t (kept ++ [e])
          (by simpa using sourceKeeps) (by simpa [freeAfter] using keeps₁) fuel
          (fun _ => order) shorter
      refine ⟨source', target', ?_, ?_, ?_, ?_⟩
      · simp [Container.mapMergeLoop, value, Container.insert, placed, following, result,
          Reference.mergeElements, occupied]
      · simpa [Reference.mergeElements, occupied] using targetKeeps'
      · simpa [Reference.mergeElements, occupied] using sourceKeeps'
      · simpa [Reference.mergeElements, occupied] using later
    | none =>
      obtain ⟨source₁, erased, sourceKeeps₁⟩ :=
        sourceKeeps.erase_keeps (show _ = kept ++ e :: last from rfl)
      simp only [Reference.insert, occupied] at placed keeps₁
      obtain ⟨source', target', result, targetKeeps', sourceKeeps', later⟩ :=
        @ih (fresh + 1) source₁ target₁ (t.insertNew fresh e.key e.mapped)
          kept (sourceKeeps₁.mono (Nat.le_succ fresh)) (by simpa [freeAfter] using keeps₁)
          fuel (fun _ => order) shorter
      refine ⟨source', target', ?_, ?_, ?_, ?_⟩
      · simp [Container.mapMergeLoop, value, Container.insert, placed, erased, result,
          Reference.mergeElements, occupied]
      · simpa [Reference.mergeElements, occupied] using targetKeeps'
      · simpa [Reference.mergeElements, occupied] using sourceKeeps'
      · simp only [Reference.mergeElements, occupied]
        omega

/-- Where duplicates are allowed, both loops do the same. -/
theorem multimapMergeLoop_eq (order : last ≠ [] → StrictWeak t.compare)
    (flag : t.allowDuplicates = true) {fuel : Nat}
    (enough : last.length < fuel) :
    Container.multimapMergeLoop fuel target source fresh (last.head?.map Element.node) =
      Container.mapMergeLoop fuel target source fresh (last.head?.map Element.node) := by
  induction last generalizing source target t kept fresh fuel with
  | nil =>
    obtain _ | fuel := fuel
    · omega
    rfl
  | cons e last ih =>
    obtain _ | fuel := fuel
    · omega
    have value := sourceKeeps.value_eq (show e ∈ kept ++ e :: last by simp)
    have vacant : t.occupant e.key = none := by
      rw [Reference.occupant, if_pos flag]
    replace order := order (cons_ne_nil e last)
    obtain ⟨target₁, placed, keeps₁⟩ :=
      targetKeeps.tryEmplace_keeps (t.takes_key order e.key) e.mapped
    rw [KeyValue.construct] at placed keeps₁
    obtain ⟨source₁, erased, sourceKeeps₁⟩ :=
      sourceKeeps.erase_keeps (show _ = kept ++ e :: last from rfl)
    simp only [Reference.insert, vacant] at placed keeps₁
    have rest := @ih (fresh + 1) source₁ target₁
      (t.insertNew fresh e.key e.mapped) kept (sourceKeeps₁.mono (Nat.le_succ fresh))
      (by simpa [freeAfter] using keeps₁) (fun _ => order) flag fuel (by simpa using enough)
    simp [Container.multimapMergeLoop, Container.mapMergeLoop, value, Container.insert, placed,
      erased, rest]

end

theorem merge_keeps {source target : Container Key Other Mapped} {t : Reference Key Other Mapped}
    (sourceKeeps : Keeps source r fresh) (targetKeeps : Keeps target t fresh)
    (order : r.elements ≠ [] → StrictWeak t.compare) :
    ∃ source' target', target.merge source fresh =
        some (target', source', (t.mergeElements fresh r.elements).2.2) ∧
      Keeps target' (t.mergeElements fresh r.elements).1 (t.mergeElements fresh r.elements).2.2 ∧
      Keeps source' { r with elements := (t.mergeElements fresh r.elements).2.1 }
        (t.mergeElements fresh r.elements).2.2 ∧
      fresh ≤ (t.mergeElements fresh r.elements).2.2 := by
  have begun := sourceKeeps.begin_eq
  have enough : r.elements.length < source.fuel := by
    rw [sourceKeeps.fuel_eq]
    omega
  obtain ⟨source', target', result, keeps⟩ :=
    @mapMergeLoop_keeps _ _ _ r fresh _ source target t [] r.elements sourceKeeps targetKeeps
      source.fuel order enough
  refine ⟨source', target', ?_, keeps⟩
  rw [Container.merge, begun, targetKeeps.allowDuplicates]
  cases flag : t.allowDuplicates with
  | false => simpa using result
  | true =>
    have same := @multimapMergeLoop_eq _ _ _ r fresh _ source target t [] r.elements sourceKeeps
      targetKeeps order flag source.fuel enough
    simpa [same] using result

end

end Keeps

end Aburi.Adinkra
