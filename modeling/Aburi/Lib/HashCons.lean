import Mathlib.Algebra.Ring.Nat
import Mathlib.Data.Multiset.AddSub

/-!
# Hash-consing tables with rollback

Keys are stored in a table and named by handles; a hash index finds the handle
of a key that is already there.  A stack of marks remembers how long the table
was and which index entries were made since, so that the last mark can be
undone or merged into the one below.  Slots are used again after a rollback;
the generation of a slot tells its users apart.

Slot zero is a placeholder, and a handle that points to it names nothing.
-/

namespace Aburi.Lib

open List Nat

structure Handle (Tag : Type) where
  index : UInt32 := 0
  generation : UInt32 := 0

instance {Tag : Type} : DecidableEq (Handle Tag) := fun first second =>
  decidable_of_iff (first.index = second.index ∧ first.generation = second.generation)
    ⟨fun agree => by cases first; cases second; simp_all, fun equal => by simp [equal]⟩

def Handle.valid {Tag : Type} (handle : Handle Tag) : Bool := handle.index != 0

theorem Handle.valid_iff {Tag : Type} {handle : Handle Tag} :
    handle.valid = true ↔ handle.index ≠ 0 := by
  simp [Handle.valid]

/-- An entry of a hash index. -/
abbrev HashEntry (Tag : Type) : Type := UInt64 × Handle Tag

instance {Tag : Type} : BEq (HashEntry Tag) := instBEqOfDecidableEq

structure Mark (Tag : Type) where
  size : ℕ
  inserted : List (HashEntry Tag) := []

variable {slot : ℕ}

namespace Generations

variable {Tag : Type}

/-- The generation a slot gets when it is used next; zero is never given out. -/
def next (generations : List UInt32) (index : ℕ) : UInt32 :=
  match generations[index]? with
  | some generation => if generation + 1 = 0 then 1 else generation + 1
  | none => 1

def use (generations : List UInt32) (index : ℕ) : List UInt32 :=
  if index < generations.length then generations.set index (next generations index)
  else generations ++ [next generations index]

def handle (generations : List UInt32) (size : ℕ) : Handle Tag :=
  ⟨UInt32.ofNat size, next generations (UInt32.ofNat size).toNat⟩

/-- The handle names a slot of a table of that size, and its present user. -/
def live (generations : List UInt32) (size : ℕ) (handle : Handle Tag) : Bool :=
  handle.valid && decide (handle.index.toNat < size) &&
    (generations[handle.index.toNat]? == some handle.generation)

theorem toNat_index {size : ℕ} (fits : size < 2 ^ 32) :
    (UInt32.ofNat size).toNat = size :=
  UInt32.toNat_ofNat_of_lt' fits

theorem index_ne_zero (positive : 0 < slot) (fits : slot < 2 ^ 32) :
    UInt32.ofNat slot ≠ 0 := by
  intro zero
  have : slot = 0 := by
    rw [← toNat_index fits, zero]
    rfl
  omega

theorem toNat_pos {index : UInt32} (valid : index ≠ 0) : 0 < index.toNat :=
  Nat.pos_of_ne_zero fun zero => valid (UInt32.toNat_inj.mp zero)

section

variable {generations : List UInt32} {index : ℕ}

theorem getElem?_use_of_lt (before : slot < index) (known : index ≤ generations.length) :
    (use generations index)[slot]? = generations[slot]? := by
  rw [use]
  split
  · rw [getElem?_set_ne (by omega)]
  · rw [getElem?_append_left (by omega)]

theorem getElem?_use_self (known : index ≤ generations.length) :
    (use generations index)[index]? = some (next generations index) := by
  rw [use]
  split
  case isTrue inside => exact getElem?_set_self inside
  case isFalse outside =>
    have atEnd : index = generations.length := by omega
    rw [atEnd, getElem?_append_right (le_refl _)]
    simp

theorem lt_length_use (known : index ≤ generations.length) :
    index + 1 ≤ (use generations index).length := by
  rw [use]
  split
  · simp only [length_set]
    omega
  · simp only [length_append, length_singleton]
    omega

end

theorem live_iff {generations : List UInt32} {size : ℕ} {handle : Handle Tag} :
    live generations size handle = true ↔
      handle.index ≠ 0 ∧ handle.index.toNat < size ∧
        generations[handle.index.toNat]? = some handle.generation := by
  simp [live, Handle.valid, and_assoc]

end Generations

structure HashCons (Key Tag : Type) where
  keys : List Key
  generations : List UInt32
  index : List (HashEntry Tag)
  marks : List (Mark Tag)

namespace HashCons

variable {Key Tag : Type}

section Operations

variable (hash : Key → UInt64) (same : Key → Key → Bool)

def initial (placeholder : Key) : HashCons Key Tag := ⟨[placeholder], [0], [], []⟩

def keyAt (table : HashCons Key Tag) (handle : Handle Tag) : Option Key :=
  if Generations.live table.generations table.keys.length handle then
    table.keys[handle.index.toNat]?
  else none

def matching (table : HashCons Key Tag) (key : Key) (entry : HashEntry Tag) : Bool :=
  (table.keyAt entry.2).any fun stored => same stored key

def lookup (table : HashCons Key Tag) (key : Key) : Option (HashEntry Tag) :=
  (table.index.filter fun entry => entry.1 == hash key).find? (table.matching same key)

/-- The entry is noted in the mark that is on top, if there is one. -/
def note (entry : HashEntry Tag) : List (Mark Tag) → List (Mark Tag)
  | [] => []
  | mark :: rest => { mark with inserted := mark.inserted ++ [entry] } :: rest

def add (table : HashCons Key Tag) (key : Key) : Handle Tag × HashCons Key Tag :=
  let handle : Handle Tag := Generations.handle table.generations table.keys.length
  (handle,
    { keys := table.keys ++ [key]
      generations := Generations.use table.generations (handle.index.toNat)
      index := table.index ++ [(hash key, handle)]
      marks := note (hash key, handle) table.marks })

def intern (table : HashCons Key Tag) (key : Key) : Handle Tag × HashCons Key Tag :=
  match table.lookup hash same key with
  | some entry => (entry.2, table)
  | none => table.add hash key

def begin (table : HashCons Key Tag) : HashCons Key Tag :=
  { table with marks := { size := table.keys.length } :: table.marks }

/-- What the mark on top noted goes to the mark below it. -/
def mergeMarks : List (Mark Tag) → List (Mark Tag)
  | [] => []
  | [_] => []
  | mark :: parent :: rest =>
    { parent with inserted := parent.inserted ++ mark.inserted } :: rest

def commit (table : HashCons Key Tag) : HashCons Key Tag :=
  { table with marks := mergeMarks table.marks }

def rollback (table : HashCons Key Tag) : HashCons Key Tag :=
  match table.marks with
  | [] => table
  | mark :: rest =>
    { table with
      keys := table.keys.take mark.size
      index := mark.inserted.foldl List.erase table.index
      marks := rest }

end Operations

/-- The index entry of a slot. -/
def entryAt (hash : Key → UInt64) (keys : List Key) (generations : List UInt32)
    (slot : ℕ) : Option (HashEntry Tag) :=
  match keys[slot]?, generations[slot]? with
  | some key, some generation => some (hash key, ⟨UInt32.ofNat slot, generation⟩)
  | _, _ => none

/-- The index entries of the slots from `first` up to `last`, which is excluded. -/
def entries (hash : Key → UInt64) (keys : List Key) (generations : List UInt32)
    (first last : ℕ) : List (HashEntry Tag) :=
  (range' first (last - first)).filterMap (entryAt hash keys generations)

/-- Each mark noted the entries of the slots between its size and the next mark's. -/
def Marked (hash : Key → UInt64) (keys : List Key) (generations : List UInt32) :
    ℕ → List (Mark Tag) → Prop
  | _, [] => True
  | upper, mark :: rest =>
    0 < mark.size ∧ mark.size ≤ upper ∧
      mark.inserted = entries hash keys generations mark.size upper ∧
      Marked hash keys generations mark.size rest

structure Sound (hash : Key → UInt64) (same : Key → Key → Bool)
    (table : HashCons Key Tag) : Prop where
  nonempty : 0 < table.keys.length
  fits : table.keys.length ≤ 2 ^ 32
  known : table.keys.length ≤ table.generations.length
  indexed : table.index.Perm (entries hash table.keys table.generations 1 table.keys.length)
  distinct : ∀ first second key other, 0 < first → first < second →
    table.keys[first]? = some key → table.keys[second]? = some other →
    same key other = false
  marked : Marked hash table.keys table.generations table.keys.length table.marks

variable {key : Key} {entry : HashEntry Tag} {marks : List (Mark Tag)}

section Entries

variable {hash : Key → UInt64} {keys keys' : List Key} {generations generations' : List UInt32}

theorem entryAt_eq_some {generation : UInt32} (keyAt : keys[slot]? = some key)
    (used : generations[slot]? = some generation) :
    entryAt hash keys generations slot =
      some ((hash key, ⟨UInt32.ofNat slot, generation⟩) : HashEntry Tag) := by
  simp [entryAt, keyAt, used]

theorem entryAt_congr (sameKey : keys'[slot]? = keys[slot]?)
    (sameGeneration : generations'[slot]? = generations[slot]?) :
    (entryAt hash keys' generations' slot : Option (HashEntry Tag)) =
      entryAt hash keys generations slot := by
  simp [entryAt, sameKey, sameGeneration]

variable {first : ℕ}

theorem entries_congr {last : ℕ} (sameKeys : ∀ slot, slot < last → keys'[slot]? = keys[slot]?)
    (sameGenerations : ∀ slot, slot < last → generations'[slot]? = generations[slot]?) :
    (entries hash keys' generations' first last : List (HashEntry Tag)) =
      entries hash keys generations first last := by
  apply filterMap_congr
  intro slot member
  have below : slot < last := by
    have := mem_range'_1.mp member
    omega
  exact entryAt_congr (sameKeys slot below) (sameGenerations slot below)

theorem mem_entries {last : ℕ} :
    entry ∈ entries hash keys generations first last ↔
      ∃ slot, first ≤ slot ∧ slot < last ∧ entryAt hash keys generations slot = some entry := by
  simp only [entries, mem_filterMap, mem_range'_1]
  constructor
  · rintro ⟨slot, range, found⟩
    exact ⟨slot, range.1, by omega, found⟩
  · rintro ⟨slot, lower, upper, found⟩
    exact ⟨slot, ⟨lower, by omega⟩, found⟩

theorem entries_split {middle last : ℕ} (lower : first ≤ middle) (upper : middle ≤ last) :
    (entries hash keys generations first last : List (HashEntry Tag)) =
      entries hash keys generations first middle ++ entries hash keys generations middle last := by
  rw [entries, entries, entries, ← filterMap_append]
  congr 1
  have lengths : last - first = (middle - first) + (last - middle) := by omega
  have start : first + (middle - first) = middle := by omega
  rw [lengths, ← range'_append_1, start]

theorem entries_self :
    (entries hash keys generations first first : List (HashEntry Tag)) = [] := by
  simp [entries]

theorem entries_succ {last : ℕ} (lower : first ≤ last)
    (found : entryAt hash keys generations last = some entry) :
    entries hash keys generations first (last + 1) =
      entries hash keys generations first last ++ [entry] := by
  rw [entries_split lower (le_succ last)]
  congr 1
  simp [entries, found]

theorem Marked.congr {upper : ℕ} (marked : Marked hash keys generations upper marks)
    (sameKeys : ∀ slot, slot < upper → keys'[slot]? = keys[slot]?)
    (sameGenerations : ∀ slot, slot < upper → generations'[slot]? = generations[slot]?) :
    Marked hash keys' generations' upper marks := by
  induction marks generalizing upper with
  | nil => trivial
  | cons mark rest ih =>
    obtain ⟨positive, below, noted, earlier⟩ := marked
    refine ⟨positive, below, ?_, ?_⟩
    · rw [noted]
      exact (entries_congr sameKeys sameGenerations).symm
    · apply ih earlier
      · intro slot inside
        exact sameKeys slot (by omega)
      · intro slot inside
        exact sameGenerations slot (by omega)

end Entries

variable {hash : Key → UInt64} {same : Key → Key → Bool} {table : HashCons Key Tag}

theorem keyAt_eq_some {handle : Handle Tag} :
    table.keyAt handle = some key ↔
      handle.index ≠ 0 ∧ table.keys[handle.index.toNat]? = some key ∧
        table.generations[handle.index.toNat]? = some handle.generation := by
  rw [keyAt]
  split
  case isTrue alive =>
    obtain ⟨valid, -, used⟩ := Generations.live_iff.1 alive
    simp [valid, used]
  case isFalse dead =>
    simp only [reduceCtorEq, false_iff, not_and]
    intro valid stored used
    apply dead
    exact Generations.live_iff.2 ⟨valid, (List.getElem?_eq_some_iff.mp stored).1, used⟩

theorem initial_sound (placeholder : Key) :
    Sound hash same (initial placeholder : HashCons Key Tag) := by
  refine ⟨by simp [initial], by simp [initial], by simp [initial], ?_, ?_, trivial⟩
  · simp [initial, entries]
  · intro first second key other positive after stored otherStored
    have inside := (List.getElem?_eq_some_iff.mp otherStored).1
    simp only [initial, length_singleton] at inside
    omega

variable {stored : Key}

namespace Sound

theorem mem_index (sound : Sound hash same table) :
    entry ∈ table.index ↔ ∃ key, table.keyAt entry.2 = some key ∧ entry.1 = hash key := by
  rw [sound.indexed.mem_iff, mem_entries]
  constructor
  · rintro ⟨slot, lower, upper, found⟩
    obtain ⟨key, stored⟩ : ∃ key, table.keys[slot]? = some key :=
      ⟨_, getElem?_eq_getElem upper⟩
    obtain ⟨generation, used⟩ : ∃ generation, table.generations[slot]? = some generation :=
      ⟨_, getElem?_eq_getElem (lt_of_lt_of_le upper sound.known)⟩
    rw [entryAt_eq_some stored used, Option.some.injEq] at found
    subst found
    have slotFits := lt_of_lt_of_le upper sound.fits
    have slotIndex := Generations.toNat_index slotFits
    refine ⟨key, keyAt_eq_some.2 ⟨?_, ?_, ?_⟩, rfl⟩
    · exact Generations.index_ne_zero lower slotFits
    · rwa [slotIndex]
    · rwa [slotIndex]
  · rintro ⟨key, found, hashed⟩
    obtain ⟨valid, stored, used⟩ := keyAt_eq_some.1 found
    refine ⟨entry.2.index.toNat, Generations.toNat_pos valid,
      (List.getElem?_eq_some_iff.mp stored).1, ?_⟩
    rw [entryAt_eq_some stored used, UInt32.ofNat_toNat, ← hashed]

theorem handle_eq_iff (sound : Sound hash same table) (refl : ∀ key, same key key = true)
    (symm : ∀ first second, same first second = true → same second first = true)
    {first second : Handle Tag} {other : Key} (stored : table.keyAt first = some key)
    (otherStored : table.keyAt second = some other) :
    first = second ↔ same key other = true := by
  obtain ⟨valid, found, used⟩ := keyAt_eq_some.1 stored
  obtain ⟨otherValid, otherFound, otherUsed⟩ := keyAt_eq_some.1 otherStored
  have positive := Generations.toNat_pos valid
  have otherPositive := Generations.toNat_pos otherValid
  constructor
  · rintro rfl
    rw [stored, Option.some.injEq] at otherStored
    exact otherStored ▸ refl key
  · intro agree
    rcases Nat.lt_trichotomy first.index.toNat second.index.toNat with before | equal | after
    · have := sound.distinct _ _ _ _ positive before found otherFound
      simp [agree] at this
    · have sameIndex : first.index = second.index := UInt32.toNat_inj.mp equal
      have sameGeneration : first.generation = second.generation := by
        rw [equal, otherUsed, Option.some.injEq] at used
        exact used.symm
      cases first
      cases second
      simp_all
    · have := sound.distinct _ _ _ _ otherPositive after otherFound found
      simp [symm _ _ agree] at this

theorem lookup_eq_some (found : table.lookup hash same key = some entry) :
    ∃ stored, table.keyAt entry.2 = some stored ∧ same stored key = true := by
  have holds := find?_some found
  simpa [matching, Option.any_eq_true] using holds

theorem lookup_eq_none (sound : Sound hash same table)
    (hashed : ∀ first second, same first second = true → hash first = hash second)
    (missing : table.lookup hash same key = none) {handle : Handle Tag}
    (found : table.keyAt handle = some stored) :
    same stored key = false := by
  rw [Bool.eq_false_iff]
  intro agree
  have member : (hash stored, handle) ∈ table.index := sound.mem_index.2 ⟨stored, found, rfl⟩
  have tried := find?_eq_none.mp missing (hash stored, handle) (by
    rw [mem_filter]
    exact ⟨member, by simp [hashed _ _ agree]⟩)
  apply tried
  simp [matching, found, agree]

theorem note_marked {keys : List Key} {generations : List UInt32} {upper : ℕ}
    (marked : Marked hash keys generations upper marks)
    (found : entryAt hash keys generations upper = some entry) :
    Marked hash keys generations (upper + 1) (note entry marks) := by
  cases marks with
  | nil => trivial
  | cons mark rest =>
    obtain ⟨positive, below, noted, earlier⟩ := marked
    refine ⟨positive, by simp only; omega, ?_, earlier⟩
    simp only [entries_succ below found, noted]

end Sound

section Steps

variable (hash same)

section

variable (sound : Sound hash same table) (room : table.keys.length < 2 ^ 32)
include sound room

/-- What is handed out next names the new key and leaves the other names alone. -/
theorem add_keyAt (key : Key) : (table.add hash key).2.keyAt (table.add hash key).1 = some key := by
  have slotIndex := Generations.toNat_index room
  simp only [add, Generations.handle, keyAt_eq_some, slotIndex]
  refine ⟨Generations.index_ne_zero sound.nonempty room, ?_,
    Generations.getElem?_use_self sound.known⟩
  · rw [getElem?_append_right (le_refl _)]
    simp

theorem add_getElem?_of_lt (key : Key) (inside : slot < table.keys.length) :
    (table.add hash key).2.keys[slot]? = table.keys[slot]? ∧
      (table.add hash key).2.generations[slot]? = table.generations[slot]? := by
  simp only [add, Generations.handle, Generations.toNat_index room]
  exact ⟨getElem?_append_left inside, Generations.getElem?_use_of_lt inside sound.known⟩

theorem add_sound
    (fresh : ∀ handle stored, table.keyAt handle = some stored → same stored key = false) :
    Sound hash same (table.add hash key).2 := by
  have slotIndex := Generations.toNat_index room
  have earlier := fun slot (inside : slot < table.keys.length) =>
    add_getElem?_of_lt hash same sound room key inside
  have lengths : (table.add hash key).2.keys.length = table.keys.length + 1 := by
    simp [add]
  have newEntry : entryAt hash (table.add hash key).2.keys (table.add hash key).2.generations
      table.keys.length = some (hash key, (table.add hash key).1) := by
    have := keyAt_eq_some.1 (add_keyAt hash same sound room key)
    rw [show (table.add hash key).1.index.toNat = table.keys.length from slotIndex] at this
    rw [entryAt_eq_some this.2.1 this.2.2]
    rfl
  refine ⟨by omega, by omega, ?_, ?_, ?_, ?_⟩
  · rw [lengths]
    simp only [add, Generations.handle, slotIndex]
    exact Generations.lt_length_use sound.known
  · rw [lengths, entries_succ sound.nonempty newEntry,
      entries_congr (fun slot inside => (earlier slot inside).1)
        (fun slot inside => (earlier slot inside).2)]
    exact sound.indexed.append_right _
  · intro first second stored other positive before found otherFound
    have inside := (List.getElem?_eq_some_iff.mp otherFound).1
    have firstInside : first < table.keys.length := by omega
    rw [(earlier first firstInside).1] at found
    rcases Nat.lt_or_ge second table.keys.length with old | new
    · rw [(earlier second old).1] at otherFound
      exact sound.distinct _ _ _ _ positive before found otherFound
    · have last : second = table.keys.length := by omega
      have otherKey : other = key := by
        rw [last] at otherFound
        simpa [add] using otherFound.symm
      have firstFits := lt_of_lt_of_le firstInside sound.fits
      obtain ⟨generation, used⟩ : ∃ generation, table.generations[first]? = some generation :=
        ⟨_, getElem?_eq_getElem (lt_of_lt_of_le firstInside sound.known)⟩
      rw [otherKey]
      apply fresh ⟨UInt32.ofNat first, generation⟩
      rw [keyAt_eq_some, Generations.toNat_index firstFits]
      exact ⟨Generations.index_ne_zero positive firstFits, found, used⟩
  · rw [lengths]
    apply Sound.note_marked _ newEntry
    exact sound.marked.congr (fun slot inside => (earlier slot inside).1)
      (fun slot inside => (earlier slot inside).2)

end

theorem begin_sound (sound : Sound hash same table) : Sound hash same table.begin :=
  ⟨sound.nonempty, sound.fits, sound.known, sound.indexed, sound.distinct,
    sound.nonempty, le_refl _, entries_self.symm, sound.marked⟩

theorem mergeMarks_marked {keys : List Key} {generations : List UInt32} {upper : ℕ}
    (marked : Marked hash keys generations upper marks) :
    Marked hash keys generations upper (mergeMarks marks) := by
  match marks with
  | [] | [_] => trivial
  | mark :: parent :: rest =>
    obtain ⟨-, below, noted, positive, parentBelow, parentNoted, earlier⟩ := marked
    refine ⟨positive, le_trans parentBelow below, ?_, earlier⟩
    simp only [parentNoted, noted, entries_split parentBelow below]

theorem commit_sound (sound : Sound hash same table) : Sound hash same table.commit :=
  ⟨sound.nonempty, sound.fits, sound.known, sound.indexed, sound.distinct,
    mergeMarks_marked hash sound.marked⟩

/-- Taking the entries of the dropped slots out of the index leaves those of the others. -/
theorem erase_entries_perm {keys : List Key} {generations : List UInt32} {size upper : ℕ}
    {index : List (HashEntry Tag)} (positive : 0 < size) (below : size ≤ upper)
    (indexed : index.Perm (entries hash keys generations 1 upper)) :
    ((entries hash keys generations size upper).foldl List.erase index).Perm
      (entries hash keys generations 1 size) := by
  rw [← diff_eq_foldl, ← Multiset.coe_eq_coe, ← Multiset.coe_sub,
    Multiset.coe_eq_coe.mpr indexed, entries_split positive below, ← Multiset.coe_add,
    Multiset.add_sub_cancel_right]

theorem rollback_sound (sound : Sound hash same table) : Sound hash same table.rollback := by
  rw [rollback]
  split
  case h_1 => exact sound
  case h_2 mark rest top =>
    have marked := sound.marked
    rw [top] at marked
    obtain ⟨positive, below, noted, earlier⟩ := marked
    have kept : ∀ slot, slot < mark.size → (table.keys.take mark.size)[slot]? = table.keys[slot]? :=
      fun slot inside => getElem?_take_of_lt inside
    have length : (table.keys.take mark.size).length = mark.size := by
      simp [below]
    refine ⟨?_, ?_, ?_, ?_, ?_, ?_⟩
    · simpa only [length] using positive
    · simpa only [length] using le_trans below sound.fits
    · simpa only [length] using le_trans below sound.known
    · simp only [length, noted, entries_congr kept (fun _ _ => rfl)]
      exact erase_entries_perm hash positive below sound.indexed
    · intro first second key other firstPositive before found otherFound
      have inside := (List.getElem?_eq_some_iff.mp otherFound).1
      simp only [length] at inside
      simp only [kept first (by omega)] at found
      simp only [kept second inside] at otherFound
      exact sound.distinct _ _ _ _ firstPositive before found otherFound
    · simp only [length]
      exact earlier.congr kept fun _ _ => rfl

end Steps

section Naming

variable (hash same)

theorem intern_sound (sound : Sound hash same table)
    (hashed : ∀ first second, same first second = true → hash first = hash second)
    (room : (table.intern hash same key).2.keys.length ≤ 2 ^ 32) :
    Sound hash same (table.intern hash same key).2 := by
  rw [intern] at room ⊢
  split at room
  case h_1 => exact sound
  case h_2 missing =>
    apply add_sound hash same sound (lt_of_succ_le (by simpa [add] using room))
    intro handle stored found
    exact sound.lookup_eq_none hashed missing found

/-- The handle that interning returns names the key up to sameness. -/
theorem intern_keyAt (sound : Sound hash same table) (refl : ∀ key, same key key = true)
    (room : (table.intern hash same key).2.keys.length ≤ 2 ^ 32) :
    ∃ stored,
      (table.intern hash same key).2.keyAt (table.intern hash same key).1 = some stored ∧
        same stored key = true := by
  rw [intern] at room ⊢
  split at room
  case h_1 entry found => exact Sound.lookup_eq_some found
  case h_2 missing =>
    exact ⟨key, add_keyAt hash same sound (lt_of_succ_le (by simpa [add] using room)) key, refl key⟩

/-- Interning leaves the names that exist alone. -/
theorem intern_keyAt_of_some (sound : Sound hash same table)
    (room : (table.intern hash same key).2.keys.length ≤ 2 ^ 32) {handle : Handle Tag}
    (found : table.keyAt handle = some stored) :
    (table.intern hash same key).2.keyAt handle = some stored := by
  rw [intern] at room ⊢
  split at room
  case h_1 => exact found
  case h_2 missing =>
    obtain ⟨valid, slot, used⟩ := keyAt_eq_some.1 found
    have inside := (List.getElem?_eq_some_iff.mp slot).1
    have earlier := add_getElem?_of_lt hash same sound (lt_of_succ_le (by simpa [add] using room)) key inside
    exact keyAt_eq_some.2 ⟨valid, earlier.1.trans slot, earlier.2.trans used⟩

/-- A rollback takes names away; the names it leaves name what they named. -/
theorem rollback_keyAt {handle : Handle Tag} (found : table.rollback.keyAt handle = some stored) :
    table.keyAt handle = some stored := by
  rw [rollback] at found
  split at found
  case h_1 => exact found
  case h_2 mark rest top =>
    obtain ⟨valid, slot, used⟩ := keyAt_eq_some.1 found
    refine keyAt_eq_some.2 ⟨valid, ?_, used⟩
    have inside := (List.getElem?_eq_some_iff.mp slot).1
    rw [length_take] at inside
    rwa [getElem?_take_of_lt (by omega)] at slot

/-- Interning a key returns a given name exactly when the name's key is the same. -/
theorem intern_eq_iff (sound : Sound hash same table) (refl : ∀ key, same key key = true)
    (symm : ∀ first second, same first second = true → same second first = true)
    (trans : ∀ first second third, same first second = true → same second third = true →
      same first third = true)
    (hashed : ∀ first second, same first second = true → hash first = hash second)
    (room : (table.intern hash same key).2.keys.length ≤ 2 ^ 32) {handle : Handle Tag}
    (found : table.keyAt handle = some stored) :
    (table.intern hash same key).1 = handle ↔ same stored key = true := by
  have after := intern_sound hash same sound hashed room
  obtain ⟨interned, named, agree⟩ := intern_keyAt hash same sound refl room
  have kept := intern_keyAt_of_some hash same sound room found
  rw [after.handle_eq_iff refl symm named kept]
  constructor
  · intro equal
    exact trans _ _ _ (symm _ _ equal) agree
  · intro equal
    exact trans _ _ _ agree (symm _ _ equal)

end Naming

end HashCons

end Aburi.Lib
