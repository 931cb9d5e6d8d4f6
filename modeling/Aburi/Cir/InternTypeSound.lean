import Aburi.Cir.InternFile

/-!
# The table of types as a hash-consing table

The types of a file represent the specifications they were interned from: the
payload of a type has the type's own index, and a type that was interned without
a canonical link is its own canonical type.  The calls on the file are then the
operations of the hash-consing table.
-/

namespace Aburi.Cir

open List

open Aburi.Lib (Handle HashEntry Mark HashCons Generations.toNat_index
  Generations.index_ne_zero Generations.toNat_pos Generations.live_iff)

theorem typeSpecsEqual_refl (spec : TypeSpec) : typeSpecsEqual spec spec = true :=
  typeSpecsEqual_iff.mpr rfl

theorem typeSpecsEqual_symm (lhs rhs : TypeSpec) (equal : typeSpecsEqual lhs rhs = true) :
    typeSpecsEqual rhs lhs = true :=
  typeSpecsEqual_iff.mpr (typeSpecsEqual_iff.mp equal).symm

theorem typeSpecsEqual_trans (first second third : TypeSpec)
    (equal : typeSpecsEqual first second = true) (equal' : typeSpecsEqual second third = true) :
    typeSpecsEqual first third = true :=
  typeSpecsEqual_iff.mpr ((typeSpecsEqual_iff.mp equal).trans (typeSpecsEqual_iff.mp equal'))

abbrev TypeTable := HashCons TypeSpec TypeTag

def Transaction.typeMark (transaction : Transaction) : Mark TypeTag :=
  ⟨transaction.typesSize, transaction.insertedTypeEntries⟩

/-- The type at a slot is stored as interned from the specification. -/
def File.StoresType (file : File) (slot : ℕ) (spec : TypeSpec) : Prop :=
  ∃ type generation, file.types[slot]? = some type ∧
    file.typeGenerations[slot]? = some generation ∧
    file.typePayloads[slot]? = some spec.payload ∧
    type.kind = spec.kind ∧ type.payloadIndex = UInt32.ofNat slot ∧
    type.desugared = spec.desugared ∧ type.resolved = spec.resolved ∧
    spec.canonical ≠ ⟨UInt32.ofNat slot, generation⟩ ∧
    type.canonical =
      if spec.canonical.valid then spec.canonical else ⟨UInt32.ofNat slot, generation⟩

structure TypesRepresented (file : File) (table : TypeTable) : Prop where
  generations : table.generations = file.typeGenerations
  index : table.index = file.typeIndex
  marks : table.marks = file.transactions.map Transaction.typeMark
  length : file.types.length = table.keys.length
  payloadsLength : file.typePayloads.length = table.keys.length
  payloadsSize : ∀ transaction ∈ file.transactions,
    transaction.typePayloadsSize = transaction.typesSize
  stored : ∀ slot spec, 0 < slot → table.keys[slot]? = some spec → file.StoresType slot spec

section Matching

variable {stringHash : String → UInt64} {file : File} {table : TypeTable}

theorem File.StoresType.typeMatches {slot : ℕ} {stored spec : TypeSpec} {id : TypeId}
    (stores : file.StoresType slot stored) (slotIndex : id.index.toNat = slot)
    (fits : slot < 2 ^ 32) (alive : file.validType id = true) :
    file.typeMatches spec id = typeSpecsEqual stored spec := by
  obtain ⟨type, generation, found, used, payload, kind, payloadIndex, desugared, resolved,
    foreign, canonical⟩ := stores
  obtain ⟨valid, -, sameGeneration⟩ := Generations.live_iff.mp alive
  rw [slotIndex, used, Option.some.injEq] at sameGeneration
  have index : UInt32.ofNat slot = id.index := by
    rw [← slotIndex, UInt32.ofNat_toNat]
  have own : id = ⟨UInt32.ofNat slot, generation⟩ := by
    cases id
    simp_all
  have payloadSlot : (UInt32.ofNat slot).toNat = slot := Generations.toNat_index fits
  have link : handleForm (if type.canonical = id then {} else type.canonical) =
      handleForm stored.canonical := by
    rw [canonical, own]
    cases linked : stored.canonical.valid
    · simp only [Bool.false_eq_true, if_false, if_true, handleForm, linked]
      rfl
    · simp [foreign]
  rw [Bool.eq_iff_iff]
  simp only [File.typeMatches, alive, slotIndex, found, payloadIndex, payloadSlot, payload,
    typeSpecsEqual, Bool.and_eq_true, bne_iff_ne, ne_eq, beq_iff_eq, kind, desugared, resolved,
    sameLink_iff, payloadFields_equal_iff, link, true_and]
  have nonzero : UInt32.ofNat slot ≠ 0 := index ▸ valid
  constructor
  · rintro ⟨-, ⟨⟨⟨kinds, payloads⟩, links⟩, desugaredLinks⟩, resolvedLinks⟩
    exact ⟨⟨⟨⟨kinds, payloads.symm⟩, links.symm⟩, desugaredLinks.symm⟩, resolvedLinks.symm⟩
  · rintro ⟨⟨⟨⟨kinds, payloads⟩, links⟩, desugaredLinks⟩, resolvedLinks⟩
    exact ⟨nonzero, ⟨⟨⟨kinds, payloads.symm⟩, links.symm⟩, desugaredLinks.symm⟩, resolvedLinks.symm⟩

theorem TypesRepresented.validType_eq (represented : TypesRepresented file table)
    (id : TypeId) :
    file.validType id = Aburi.Lib.Generations.live table.generations table.keys.length id := by
  rw [File.validType, represented.generations, represented.length]

theorem TypesRepresented.typeMatches_eq (represented : TypesRepresented file table)
    (fits : table.keys.length ≤ 2 ^ 32) (spec : TypeSpec) (entry : HashEntry TypeTag) :
    file.typeMatches spec entry.2 = table.matching typeSpecsEqual spec entry := by
  have alive := represented.validType_eq entry.2
  rw [HashCons.matching, HashCons.keyAt, ← alive]
  split
  case isTrue live =>
    obtain ⟨valid, inside, -⟩ := Generations.live_iff.mp live
    rw [represented.length] at inside
    have found := List.getElem?_eq_getElem inside
    rw [found, Option.any_some]
    have stores := represented.stored _ _ (Generations.toNat_pos valid) found
    exact stores.typeMatches rfl (lt_of_lt_of_le inside fits) live
  case isFalse dead =>
    simp [File.typeMatches, dead]

end Matching

section Calls

variable (stringHash : String → UInt64) {file : File} {table : TypeTable}

theorem noteTypeEntry_typeMark (entry : HashEntry TypeTag) (transactions : List Transaction) :
    (File.noteTypeEntry entry transactions).map Transaction.typeMark =
      HashCons.note entry (transactions.map Transaction.typeMark) := by
  cases transactions <;> rfl

theorem noteTypeEntry_sizes {entry : HashEntry TypeTag} {transactions : List Transaction}
    (sizes : ∀ transaction ∈ transactions, transaction.typePayloadsSize = transaction.typesSize) :
    ∀ transaction ∈ File.noteTypeEntry entry transactions,
      transaction.typePayloadsSize = transaction.typesSize := by
  cases transactions with
  | nil => simp [File.noteTypeEntry]
  | cons first rest => simpa [File.noteTypeEntry] using sizes

section

variable (represented : TypesRepresented file table)
include represented

theorem TypesRepresented.nextTypeId_eq :
    file.nextTypeId = Aburi.Lib.Generations.handle table.generations table.keys.length := by
  rw [File.nextTypeId, represented.generations, represented.length]

theorem addType_represented (sound : table.Sound (typeSpecHash stringHash) typeSpecsEqual)
    (room : table.keys.length < 2 ^ 32) {spec : TypeSpec}
    (foreign : spec.canonical ≠ file.nextTypeId) :
    TypesRepresented (file.addType (typeSpecHash stringHash spec) spec).2
        (table.add (typeSpecHash stringHash) spec).2 ∧
      (file.addType (typeSpecHash stringHash spec) spec).1 =
        (table.add (typeSpecHash stringHash) spec).1 := by
  have next := represented.nextTypeId_eq
  have generations : (table.add (typeSpecHash stringHash) spec).2.generations =
      (file.addType (typeSpecHash stringHash spec) spec).2.typeGenerations := by
    simp only [File.addType, HashCons.add, next, represented.generations]
  refine ⟨⟨generations, ?_, ?_, ?_, ?_, ?_, ?_⟩, next⟩
  · simp only [File.addType, HashCons.add, next, represented.index]
  · simp only [File.addType, HashCons.add, next, noteTypeEntry_typeMark, represented.marks]
  · simp only [File.addType, HashCons.add, length_append, represented.length, length_singleton]
  · simp only [File.addType, HashCons.add, length_append, represented.payloadsLength,
      length_singleton]
  · exact noteTypeEntry_sizes represented.payloadsSize
  · intro slot stored positive found
    have bound := (List.getElem?_eq_some_iff.mp found).1
    have lengths : (table.add (typeSpecHash stringHash) spec).2.keys.length =
        table.keys.length + 1 := by simp [HashCons.add]
    rcases Nat.lt_or_ge slot table.keys.length with old | new
    · have kept := HashCons.add_getElem?_of_lt (typeSpecHash stringHash) typeSpecsEqual sound
        room spec old
      rw [kept.1] at found
      obtain ⟨type, generation, typeFound, used, payload, rest⟩ :=
        represented.stored slot stored positive found
      refine ⟨type, generation, ?_, ?_, ?_, rest⟩
      · simp only [File.addType]
        rw [getElem?_append_left (by rw [represented.length]; exact old), typeFound]
      · rw [← generations, kept.2, represented.generations, used]
      · simp only [File.addType]
        rw [getElem?_append_left (by rw [represented.payloadsLength]; exact old), payload]
    · have last : slot = table.keys.length := by omega
      subst last
      have slotIndex := Generations.toNat_index room
      obtain rfl : stored = spec := by
        simpa [HashCons.add] using found.symm
      have named := Aburi.Lib.HashCons.keyAt_eq_some.mp
        (HashCons.add_keyAt (typeSpecHash stringHash) typeSpecsEqual sound room stored)
      rw [generations, show (table.add (typeSpecHash stringHash) stored).1 = file.nextTypeId
        from next.symm, show file.nextTypeId.index.toNat = table.keys.length by
          rw [next]
          exact slotIndex] at named
      have own : file.nextTypeId =
          ⟨UInt32.ofNat table.keys.length, file.nextTypeId.generation⟩ := by
        rw [next]
        rfl
      refine ⟨file.newType stored, file.nextTypeId.generation, ?_, named.2.2, ?_, ?_⟩
      · simp only [File.addType]
        rw [← represented.length, getElem?_concat_length]
      · simp only [File.addType]
        rw [← represented.payloadsLength, getElem?_concat_length]
      · rw [← own, ← represented.payloadsLength]
        exact ⟨rfl, rfl, rfl, rfl, foreign, rfl⟩

/-- The call on the file is the interning of the table, also in what it returns. -/
theorem internType_represented (sound : table.Sound (typeSpecHash stringHash) typeSpecsEqual)
    {spec : TypeSpec} (consistent : typeSpecMatchesPayload spec = true)
    (foreign : spec.canonical ≠ file.nextTypeId)
    (room : (file.internType stringHash spec).2.types.length ≤ 2 ^ 32) :
    TypesRepresented (file.internType stringHash spec).2
        (table.intern (typeSpecHash stringHash) typeSpecsEqual spec).2 ∧
      (file.internType stringHash spec).1 =
        (table.intern (typeSpecHash stringHash) typeSpecsEqual spec).1 := by
  have searches : (file.typeIndex.filter fun entry => entry.1 == typeSpecHash stringHash spec).find?
      (fun entry => file.typeMatches spec entry.2) =
        table.lookup (typeSpecHash stringHash) typeSpecsEqual spec := by
    rw [HashCons.lookup, represented.index]
    congr 1
    funext entry
    exact represented.typeMatches_eq sound.fits spec entry
  simp only [File.internType, consistent, if_true, searches, HashCons.intern] at room ⊢
  split at room
  case h_1 found =>
    simp only [found]
    exact ⟨represented, trivial⟩
  case h_2 missing =>
    simp only [missing]
    apply addType_represented stringHash represented sound _ foreign
    simp only [File.addType, length_append, length_singleton, represented.length] at room
    omega

theorem begin_represented :
    TypesRepresented file.beginTransaction table.begin := by
  refine ⟨represented.generations, represented.index, ?_, represented.length,
    represented.payloadsLength, ?_, represented.stored⟩
  · simp only [HashCons.begin, File.beginTransaction, map_cons, represented.marks,
      Transaction.typeMark, represented.length]
  · simp only [File.beginTransaction, mem_cons, forall_eq_or_imp, represented.length,
      represented.payloadsLength, true_and]
    exact represented.payloadsSize

end

theorem mergeCommitted_typeMark (transactions : List Transaction) :
    (File.mergeCommittedTransaction transactions).map Transaction.typeMark =
      HashCons.mergeMarks (transactions.map Transaction.typeMark) := by
  match transactions with
  | [] => rfl
  | [_] => rfl
  | _ :: _ :: _ => rfl

theorem commit_represented (represented : TypesRepresented file table) :
    TypesRepresented file.commitTransaction table.commit := by
  refine ⟨represented.generations, represented.index, ?_, represented.length,
    represented.payloadsLength, ?_, represented.stored⟩
  · simp only [HashCons.commit, File.commitTransaction, mergeCommitted_typeMark, represented.marks]
  · have sizes := represented.payloadsSize
    simp only [File.commitTransaction]
    revert sizes
    match file.transactions with
    | [] | [_] => simp [File.mergeCommittedTransaction]
    | _ :: _ :: _ =>
      intro sizes
      simp only [mem_cons, forall_eq_or_imp, File.mergeCommittedTransaction] at sizes ⊢
      exact sizes.2

theorem rollback_represented (represented : TypesRepresented file table)
    (sound : table.Sound (typeSpecHash stringHash) typeSpecsEqual) :
    TypesRepresented file.rollbackTransaction table.rollback := by
  have marks := represented.marks
  rw [File.rollbackTransaction]
  split
  case h_1 none =>
    rw [none, map_nil] at marks
    rw [HashCons.rollback, marks]
    exact represented
  case h_2 transaction rest top =>
    rw [top, map_cons] at marks
    have marked := sound.marked
    rw [marks] at marked
    obtain ⟨positive, below, noted, -⟩ := marked
    simp only [Transaction.typeMark] at positive below
    have sizes := represented.payloadsSize transaction (by simp [top])
    have afterwards : table.rollback = { table with
        keys := table.keys.take transaction.typesSize
        index := transaction.insertedTypeEntries.foldl List.erase table.index
        marks := rest.map Transaction.typeMark } := by
      rw [HashCons.rollback, marks]
      rfl
    rw [afterwards]
    refine ⟨represented.generations, ?_, rfl, ?_, ?_, ?_, ?_⟩
    · simp only [represented.index]
    · simp only [length_take, represented.length]
    · simp only [length_take, sizes, represented.payloadsLength]
    · intro other member
      exact represented.payloadsSize other (by simp [top, member])
    · intro slot spec slotPositive found
      have inside := (List.getElem?_eq_some_iff.mp found).1
      simp only [length_take] at inside
      have before : slot < transaction.typesSize := by omega
      simp only [getElem?_take_of_lt before] at found
      obtain ⟨type, generation, typeFound, used, payload, rest⟩ :=
        represented.stored slot spec slotPositive found
      refine ⟨type, generation, ?_, used, ?_, rest⟩
      · simp only [getElem?_take_of_lt before, typeFound]
      · simp only [sizes, getElem?_take_of_lt before, payload]

end Calls

end Aburi.Cir
