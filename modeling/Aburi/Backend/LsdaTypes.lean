import Aburi.Backend.LsdaSize

/-!
# The type table

Filters count from one, and the sorted table has the filter `f` at the `f`-th
place from its end.
-/

namespace Aburi.Backend.Eh

open Aburi.Lib List Option

section Sorted

variable (mod : EhModule) (pads : List LandingPad)

/-- The table by descending filters: the typeinfos in their order, then the
entry for all exceptions. -/
def descendingTypeinfos : List MEhTypeInfo :=
  ((typeinfoOrder mod pads).mapIdx fun index global =>
    ⟨filterAt mod pads index, mod.targetSymbolName global⟩) ++
    if hasCatchAll mod pads then [⟨1, ""⟩] else []

theorem descendingTypeinfos_length :
    (descendingTypeinfos mod pads).length =
      filterBase mod pads + (typeinfoOrder mod pads).length := by
  rw [descendingTypeinfos, length_append, length_mapIdx, filterBase]
  split
  · exact Nat.add_comm _ _
  · exact Nat.add_comm _ _

theorem descendingTypeinfos_filter {index : ℕ} {info : MEhTypeInfo}
    (isInfo : (descendingTypeinfos mod pads)[index]? = some info) :
    info.filter = (descendingTypeinfos mod pads).length - index := by
  have small := (List.getElem?_eq_some_iff.mp isInfo).1
  rw [descendingTypeinfos_length] at small ⊢
  rw [descendingTypeinfos] at isInfo
  rcases Nat.lt_or_ge index (typeinfoOrder mod pads).length with inOrder | behind
  · rw [getElem?_append_left (by rwa [length_mapIdx]), getElem?_mapIdx] at isInfo
    obtain ⟨global, -, rfl⟩ := Option.map_eq_some_iff.mp isInfo
    rfl
  · rw [getElem?_append_right (by rwa [length_mapIdx])] at isInfo
    rw [filterBase] at small ⊢
    split at isInfo
    case isTrue catches =>
      rw [if_pos catches] at small ⊢
      rw [mem_singleton.mp (mem_of_getElem? isInfo)]
      dsimp only
      omega
    case isFalse => cases isInfo

theorem descendingTypeinfos_sorted :
    (descendingTypeinfos mod pads).Pairwise fun first second => second.filter < first.filter := by
  rw [pairwise_iff_getElem]
  intro first second firstSmall secondSmall before
  have firstFilter :=
    descendingTypeinfos_filter mod pads (getElem?_eq_getElem firstSmall)
  have secondFilter :=
    descendingTypeinfos_filter mod pads (getElem?_eq_getElem secondSmall)
  omega

theorem sortedTypeinfos_eq :
    sortedTypeinfos (ehTypeinfos mod pads) = descendingTypeinfos mod pads := by
  have sameEntries : (sortedTypeinfos (ehTypeinfos mod pads)).Perm
      (descendingTypeinfos mod pads) := by
    refine (mergeSort_perm _ _).trans ?_
    rw [ehTypeinfos, descendingTypeinfos]
    exact perm_append_comm
  have strict := descendingTypeinfos_sorted mod pads
  refine sameEntries.eq_of_pairwise ?_
    (pairwise_mergeSort ?_ ?_ _) (strict.imp fun less => decide_eq_true less.le)
  · intro first second isFirst isSecond atLeast atMost
    rw [decide_eq_true_iff] at atLeast atMost
    obtain ⟨firstIndex, isFirst⟩ :=
      mem_iff_getElem?.mp ((sameEntries.mem_iff).mp isFirst)
    obtain ⟨secondIndex, isSecond⟩ := mem_iff_getElem?.mp isSecond
    have firstFilter := descendingTypeinfos_filter mod pads isFirst
    have secondFilter := descendingTypeinfos_filter mod pads isSecond
    have firstSmall := (List.getElem?_eq_some_iff.mp isFirst).1
    have secondSmall := (List.getElem?_eq_some_iff.mp isSecond).1
    have sameIndex : firstIndex = secondIndex := by omega
    subst sameIndex
    exact Option.some.inj (isFirst.symm.trans isSecond)
  · intro first second third atLeast atMost
    rw [decide_eq_true_iff] at atLeast atMost ⊢
    omega
  · intro first second
    rw [Bool.or_eq_true, decide_eq_true_iff, decide_eq_true_iff]
    omega

end Sorted

section Entries

variable {format : ObjectFormat}

theorem typeRelocs_lookup {infos : List MEhTypeInfo} {base index : ℕ} {info : MEhTypeInfo}
    (isInfo : infos[index]? = some info) :
    (typeRelocs format base infos).lookup (base + 4 * index) =
      if info.symbol = "" then none else some (typeCell format info.symbol) := by
  have absent : ∀ (infos : List MEhTypeInfo) (base offset : ℕ), offset < base →
      (typeRelocs format base infos).lookup offset = none := by
    intro infos
    induction infos with
    | nil => exact fun _ _ _ => rfl
    | cons first infos induction =>
      intro base offset before
      rw [typeRelocs]
      split
      · exact induction (base + 4) offset (by omega)
      · rw [lookup_cons, beq_false_of_ne (by omega)]
        exact induction (base + 4) offset (by omega)
  induction infos generalizing base index with
  | nil => cases isInfo
  | cons first infos induction =>
    rw [typeRelocs]
    cases index with
    | zero =>
      rw [getElem?_cons_zero] at isInfo
      cases isInfo
      rw [Nat.mul_zero, Nat.add_zero]
      split
      case isTrue => exact absent infos _ _ (by omega)
      case isFalse => exact lookup_cons_self
    | succ index =>
      rw [getElem?_cons_succ] at isInfo
      have later := @induction (base + 4) index isInfo
      rw [show base + 4 + 4 * index = base + 4 * (index + 1) by ring] at later
      split
      case isTrue => exact later
      case isFalse =>
        rw [lookup_cons, beq_false_of_ne (by omega)]
        exact later

theorem typeEntry_length (info : MEhTypeInfo) : (typeEntry format info).length = 4 := by
  unfold typeEntry
  split
  · rfl
  · cases format <;> rfl

theorem typeEntries_take {infos : List MEhTypeInfo} {index : ℕ} {info : MEhTypeInfo}
    (isInfo : infos[index]? = some info) (tail : List UInt8) :
    ((infos.flatMap (typeEntry format) ++ tail).drop (4 * index)).take 4 =
      typeEntry format info := by
  induction infos generalizing index with
  | nil => cases isInfo
  | cons first infos induction =>
    have width := @typeEntry_length format first
    rw [flatMap_cons, append_assoc]
    cases index with
    | zero =>
      rw [getElem?_cons_zero] at isInfo
      cases isInfo
      rw [Nat.mul_zero, drop_zero, ← width]
      exact take_left
    | succ index =>
      rw [getElem?_cons_succ] at isInfo
      rw [show 4 * (index + 1) = (typeEntry format first).length + 4 * index by omega,
        ← drop_drop, drop_left]
      exact induction isInfo

theorem padTo4_length (bytes : List UInt8) :
    (padTo4 bytes).length = (bytes.length + 3) / 4 * 4 := by
  rw [padTo4, length_append, length_replicate]
  omega

end Entries

section Reading

variable {format : ObjectFormat} {value : ℕ} {callSites actions : List UInt8}
  {typeinfos : List MEhTypeInfo}

theorem readHeader_empty :
    ∃ rest, readHeader (assembleLsda format value callSites actions []).bytes =
      some ⟨none, callSites, actions ++ rest⟩ := by
  refine ⟨replicate ((4 - ([255, 255] ++ [1] ++ uleb callSites.length ++ callSites ++
    actions : List UInt8).length % 4) % 4) 0, ?_⟩
  rw [assembleLsda]
  simp only [isEmpty_nil, if_true, padTo4, append_assoc]
  simp only [cons_append, nil_append, readHeader, ne_eq, not_true_eq_false, if_false,
    if_true, readTables, readUleb_uleb, map_some, take_left, drop_left]

/-- Behind the size of the distance stand the tables, padding and the types. -/
theorem readHeader_types (nonempty : typeinfos ≠ [])
    (fits : value = ttypeCandidate (tablesSize callSites actions) typeinfos.length (ulebSize value)) :
    ∃ base front rest,
      readHeader (assembleLsda format value callSites actions typeinfos).bytes =
        some ⟨some (base + 4 * typeinfos.length), callSites, actions ++ rest⟩ ∧
      (assembleLsda format value callSites actions typeinfos).relocs =
        typeRelocs format base typeinfos ∧
      front.length = base ∧
      ∃ tail, (assembleLsda format value callSites actions typeinfos).bytes =
        front ++ (typeinfos.flatMap (typeEntry format) ++ tail) := by
  have notEmpty : typeinfos.isEmpty = false := by simpa using nonempty
  generalize isTables : ([255, 155] ++ uleb value ++ [1] ++ uleb callSites.length ++ callSites ++
    actions : List UInt8) = tables
  have isLsda : assembleLsda format value callSites actions typeinfos =
      { bytes := padTo4 (padTo4 tables ++ typeinfos.flatMap (typeEntry format))
        relocs := typeRelocs format (padTo4 tables).length typeinfos } := by
    rw [assembleLsda]
    simp only [notEmpty, Bool.false_eq_true, if_false]
    rw [isTables]
  have size : tables.length = 3 + ulebSize value + tablesSize callSites actions := by
    rw [← isTables, tablesSize, ulebSize, ulebSize]
    simp only [length_append, length_cons, length_nil]
    omega
  have base : (padTo4 tables).length + 4 * typeinfos.length = 2 + ulebSize value + value := by
    rw [padTo4_length, size]
    rw [ttypeCandidate] at fits
    omega
  refine ⟨(padTo4 tables).length, padTo4 tables, ?_, ?_⟩
  · exact replicate ((4 - tables.length % 4) % 4) 0 ++
      (typeinfos.flatMap (typeEntry format) ++
        replicate ((4 - (padTo4 tables ++ typeinfos.flatMap (typeEntry format)).length % 4) % 4)
          0)
  refine ⟨?_, by rw [isLsda], rfl,
    replicate ((4 - (padTo4 tables ++ typeinfos.flatMap (typeEntry format)).length % 4) % 4) 0,
    by rw [isLsda, padTo4, append_assoc]⟩
  rw [base, isLsda]
  dsimp only
  generalize isTail : replicate ((4 - tables.length % 4) % 4) (0 : UInt8) ++
      (typeinfos.flatMap (typeEntry format) ++
        replicate
          ((4 - (padTo4 tables ++ typeinfos.flatMap (typeEntry format)).length % 4) % 4) 0) = tail
  have whole : padTo4 (padTo4 tables ++ typeinfos.flatMap (typeEntry format)) =
      255 :: 155 :: (uleb value ++ (1 :: (uleb callSites.length ++ (callSites ++ (actions ++ tail))))) := by
    rw [← isTail, padTo4, append_assoc, ← isTables]
    rw [padTo4]
    simp only [append_assoc, cons_append, nil_append]
  rw [whole, readHeader]
  simp only [ne_eq, not_true_eq_false, if_false, readUleb_uleb, bind_some, readTables,
    if_true, map_some, take_left, drop_left]
  rw [if_neg (by decide)]
  refine congrArg (fun base => some (⟨some base, callSites, actions ++ tail⟩ : LsdaHeader)) ?_
  rw [ulebSize]
  simp only [length_cons, length_append]
  omega

/-- The search for the size of the distance comes to an end, and a reader of the
table that is then emitted finds the types where they were put. -/
def TypeTableFound (format : ObjectFormat) (callSites actions : List UInt8)
    (typeinfos : List MEhTypeInfo) : Prop :=
  ∃ fuel value, ttypeLoop (tablesSize callSites actions) typeinfos.length fuel 1 = some value ∧
    ∃ front rest tail,
      readHeader (assembleLsda format value callSites actions typeinfos).bytes =
        some ⟨some (front.length + 4 * typeinfos.length), callSites, actions ++ rest⟩ ∧
      (assembleLsda format value callSites actions typeinfos).bytes =
        front ++ (typeinfos.flatMap (typeEntry format) ++ tail)

theorem typeTableFound_iff (format : ObjectFormat) (callSites actions : List UInt8)
    (typeinfos : List MEhTypeInfo) (nonempty : typeinfos ≠ []) :
    TypeTableFound format callSites actions typeinfos ↔
      ¬ Swings (tablesSize callSites actions + typeinfos.length * 4) := by
  rw [← ttypeLoop_ends_iff]
  constructor
  · rintro ⟨fuel, value, isValue, -⟩
    exact ⟨fuel, value, isValue⟩
  · rintro ⟨fuel, value, isValue⟩
    obtain ⟨base, front, rest, isHeader, -, isBase, tail, bytes⟩ :=
      @readHeader_types format value callSites actions typeinfos nonempty
        (ttypeLoop_value isValue)
    subst isBase
    exact ⟨fuel, value, isValue, front, rest, tail, isHeader, bytes⟩

/-- The ranges of a function with one invoke, whose landing pad has the given action. -/
def singleInvoke (action : ℕ) : List UInt8 :=
  appendRange 0 4 0 0 ++ (appendRange 4 8 8 action ++ appendRange 8 12 0 0)

theorem typeTableFound_single : TypeTableFound .elf (singleInvoke 1) [1, 0] [⟨1, "_ZTIi"⟩] := by
  apply (typeTableFound_iff .elf (singleInvoke 1) [1, 0] [⟨1, "_ZTIi"⟩] (by simp)).mpr
  rintro ⟨size, remainder, atLeast, -⟩
  have large : 2 ^ 14 ≤ 2 ^ (7 * size) := Nat.pow_le_pow_right (by norm_num) (by omega)
  have small : tablesSize (singleInvoke 1) [1, 0] + [(⟨1, "_ZTIi"⟩ : MEhTypeInfo)].length * 4 =
    19 := rfl
  omega

/-- A landing pad with 8181 clauses for one type: the search goes back and forth between
two and three bytes. -/
theorem typeTable_not_found :
    ¬ TypeTableFound .elf (singleInvoke 16361) ([1, 0] ++ (replicate 8180 [1, 125]).flatten)
      [⟨1, "_ZTIi"⟩] := by
  rintro ⟨fuel, value, isValue, -⟩
  have length : ∀ count, ((replicate count [1, 125]).flatten : List UInt8).length = count * 2 := by
    intro count
    rw [length_flatten, map_replicate, sum_replicate]
    rfl
  have size : tablesSize (singleInvoke 16361) ([1, 0] ++ (replicate 8180 [1, 125]).flatten) =
      16376 := by
    rw [tablesSize, length_append, length]
    rfl
  refine ttypeLoop_ends_iff.mp ⟨fuel, value, isValue⟩ ⟨2, rfl, ?_, ?_⟩
  all_goals
    rw [size]
    decide

end Reading

end Aburi.Backend.Eh
