import Aburi.Lib.HashCons
import Mathlib.Data.List.Perm.Basic
import Mathlib.Data.List.Perm.Lattice

/-!
# Journals of nested transactions

Each open transaction has a journal entry, from which the state at its beginning
can be computed back.  A table is restored from copies of the rows that were
written and from its length, a map from copies of the values under its keys, an
index from the entries that were made.  The rules say which changes of the state
and of the innermost entry leave every earlier state as it is.
-/

namespace Aburi.Lib

open List Nat Function

section Stack

variable {State Entry : Type} (undo : Entry → State → State)

/-- The states that the open transactions restore, the innermost first. -/
def unwind : List Entry → State → List State
  | [], _ => []
  | entry :: rest, state => undo entry state :: unwind rest (undo entry state)

theorem unwind_top {top top' : Entry} {state state' : State}
    (same : undo top' state' = undo top state) (rest : List Entry) :
    unwind undo (top' :: rest) state' = unwind undo (top :: rest) state := by
  rw [unwind, unwind, same]

theorem unwind_merge {parent child merged : Entry} {state : State}
    (both : undo merged state = undo parent (undo child state)) (rest : List Entry) :
    unwind undo (merged :: rest) state = (unwind undo (child :: parent :: rest) state).tail := by
  rw [unwind, both]
  rfl

end Stack

section Saved

variable {Key Value : Type} [DecidableEq Key]

/-- The copy under a key; of several copies the last one counts. -/
def savedAt : List (Key × Value) → Key → Option Value
  | [], _ => none
  | (key, value) :: rest, wanted =>
    (savedAt rest wanted).or (if key = wanted then some value else none)

attribute [local grind =] savedAt

theorem savedAt_append (first second : List (Key × Value)) (key : Key) :
    savedAt (first ++ second) key = (savedAt second key).or (savedAt first key) := by
  induction first with
  | nil => simp [savedAt]
  | cons entry rest ih =>
    obtain ⟨held, value⟩ := entry
    simp only [cons_append, savedAt, ih, Option.or_assoc]

@[simp]
theorem savedAt_singleton (key wanted : Key) (value : Value) :
    savedAt [(key, value)] wanted = if key = wanted then some value else none := by
  simp [savedAt]

/-- There is a copy under the key. -/
def isSaved (saved : List (Key × Value)) (key : Key) : Bool :=
  (savedAt saved key).isSome

theorem savedAt_of_not_isSaved {saved : List (Key × Value)} {key : Key}
    (missing : isSaved saved key = false) : savedAt saved key = none := by
  simpa [isSaved] using missing

theorem savedAt_filter (keep : Key → Bool) (saved : List (Key × Value)) (key : Key) :
    savedAt (saved.filter fun entry => keep entry.1) key =
      if keep key then savedAt saved key else none := by
  induction saved with
  | nil => simp [savedAt]
  | cons entry rest ih =>
    obtain ⟨held, value⟩ := entry
    rw [filter_cons]
    cases kept : keep held
    · simp only [Bool.false_eq_true, if_false, ih, savedAt]
      by_cases same : held = key
      · subst same
        simp [kept]
      · simp [same]
    · simp only [if_true, savedAt, ih]
      by_cases same : held = key
      · subst same
        simp [kept]
      · simp [same]

/-- The copies of the inner transaction that the outer one keeps: those of keys it
had to save and had not saved. -/
def mergeSaved (needed : Key → Bool) (outer inner : List (Key × Value)) :
    List (Key × Value) :=
  outer ++ inner.filter fun entry => needed entry.1 && !isSaved outer entry.1

theorem savedAt_mergeSaved {needed : Key → Bool} {key : Key} (wanted : needed key = true)
    (outer inner : List (Key × Value)) :
    savedAt (mergeSaved needed outer inner) key = (savedAt outer key).or (savedAt inner key) := by
  rw [mergeSaved, savedAt_append, savedAt_filter (fun key => needed key && !isSaved outer key)]
  cases copy : savedAt outer key with
  | none => simp [wanted, isSaved, copy]
  | some value => simp [isSaved, copy]

end Saved

section Rows

variable {Row : Type}

/-- Writes the copies back. -/
def restoreRows (saved : List (ℕ × Row)) (rows : List Row) : List Row :=
  saved.foldl (fun rows entry => rows.set entry.1 entry.2) rows

theorem getElem?_restoreRows (saved : List (ℕ × Row)) (rows : List Row) (slot : ℕ) :
    (restoreRows saved rows)[slot]? = rows[slot]?.map fun row => (savedAt saved slot).getD row := by
  induction saved generalizing rows with
  | nil => simp [restoreRows, savedAt]
  | cons entry rest ih =>
    obtain ⟨held, row⟩ := entry
    have step : restoreRows ((held, row) :: rest) rows = restoreRows rest (rows.set held row) := rfl
    rw [step, ih, getElem?_set, savedAt]
    by_cases same : held = slot
    · subst same
      cases found : rows[held]? with
      | none =>
        have outside : ¬ held < rows.length := by simpa using found
        simp [outside]
      | some old =>
        have inside := (List.getElem?_eq_some_iff.mp found).1
        cases savedAt rest held <;> simp [inside]
    · simp [same]

@[simp]
theorem length_restoreRows (saved : List (ℕ × Row)) (rows : List Row) :
    (restoreRows saved rows).length = rows.length := by
  induction saved generalizing rows with
  | nil => rfl
  | cons entry rest ih =>
    calc
      (restoreRows (entry :: rest) rows).length =
          (restoreRows rest (rows.set entry.1 entry.2)).length := rfl
      _ = rows.length := by rw [ih, length_set]

/-- Takes a copy of a row, if the table had the row at the mark and has no copy of it. -/
def saveRow (size : ℕ) (rows : List Row) (slot : ℕ) (saved : List (ℕ × Row)) :
    List (ℕ × Row) :=
  if slot < size && !isSaved saved slot then
    match rows[slot]? with
    | some row => saved ++ [(slot, row)]
    | none => saved
  else saved

theorem savedAt_saveRow {size slot : ℕ} {rows : List Row} {row : Row}
    (stored : rows[slot]? = some row) (old : slot < size) (saved : List (ℕ × Row)) :
    (savedAt (saveRow size rows slot saved) slot) = some ((savedAt saved slot).getD row) := by
  rw [saveRow]
  cases copy : savedAt saved slot with
  | none => simp [old, isSaved, copy, stored, savedAt_append]
  | some value => simp [isSaved, copy]

theorem savedAt_saveRow_of_ne {size slot other : ℕ} {rows : List Row}
    (different : slot ≠ other) (saved : List (ℕ × Row)) :
    savedAt (saveRow size rows slot saved) other = savedAt saved other := by
  rw [saveRow]
  split
  · split
    · simp [savedAt_append, different]
    · rfl
  · rfl

end Rows

section Keyed

variable {Key Value : Type} [DecidableEq Key]

/-- A map from keys to values. -/
abbrev KeyMap (Key Value : Type) := Key → Option Value

/-- Writes the copies of the values back; a key that had no value is erased. -/
def restoreKeys (saved : List (Key × Option Value)) (map : KeyMap Key Value) :
    KeyMap Key Value :=
  saved.foldl (fun map entry => update map entry.1 entry.2) map

theorem restoreKeys_apply (saved : List (Key × Option Value)) (map : KeyMap Key Value)
    (key : Key) : restoreKeys saved map key = (savedAt saved key).getD (map key) := by
  induction saved generalizing map with
  | nil => rfl
  | cons entry rest ih =>
    obtain ⟨held, value⟩ := entry
    have step : restoreKeys ((held, value) :: rest) map =
        restoreKeys rest (update map held value) := rfl
    rw [step, ih, savedAt]
    by_cases same : held = key
    · subst same
      cases savedAt rest held <;> simp
    · rw [update_of_ne (Ne.symm same)]
      simp [same]

/-- Takes a copy of the value under a key, if there is no copy yet. -/
def saveKey (map : KeyMap Key Value) (key : Key) (saved : List (Key × Option Value)) :
    List (Key × Option Value) :=
  if isSaved saved key then saved else saved ++ [(key, map key)]

theorem restoreKeys_saveKey (map : KeyMap Key Value) (key : Key) (value : Option Value)
    (saved : List (Key × Option Value)) :
    restoreKeys (saveKey map key saved) (update map key value) =
      restoreKeys saved map := by
  funext other
  rw [restoreKeys_apply, restoreKeys_apply, saveKey]
  by_cases same : key = other
  · subst same
    cases copy : savedAt saved key with
    | none => simp [isSaved, copy, savedAt_append]
    | some old => simp [isSaved, copy]
  · rw [update_of_ne (Ne.symm same)]
    split
    · rfl
    · simp [savedAt_append, same]

/-- What is under a key with a copy does not matter. -/
theorem restoreKeys_update_of_saved {saved : List (Key × Option Value)} {key : Key}
    (copied : isSaved saved key = true) (map : KeyMap Key Value) (value : Option Value) :
    restoreKeys saved (update map key value) = restoreKeys saved map := by
  funext other
  rw [restoreKeys_apply, restoreKeys_apply]
  by_cases same : other = key
  · subst same
    obtain ⟨copy, found⟩ := Option.isSome_iff_exists.mp copied
    simp [found]
  · rw [update_of_ne same]

theorem restoreKeys_mergeSaved (outer inner : List (Key × Option Value))
    (map : KeyMap Key Value) :
    restoreKeys (mergeSaved (fun _ => true) outer inner) map =
      restoreKeys outer (restoreKeys inner map) := by
  funext key
  rw [restoreKeys_apply, restoreKeys_apply, restoreKeys_apply, savedAt_mergeSaved rfl]
  cases savedAt outer key <;> simp

/-- Erases keys that were inserted. -/
def eraseKeys (keys : List Key) (map : KeyMap Key Value) : KeyMap Key Value :=
  keys.foldl (fun map key => update map key none) map

theorem eraseKeys_apply (keys : List Key) (map : KeyMap Key Value) (key : Key) :
    eraseKeys keys map key = if key ∈ keys then none else map key := by
  induction keys generalizing map with
  | nil => simp [eraseKeys]
  | cons first rest ih =>
    have step : eraseKeys (first :: rest) map =
        eraseKeys rest (update map first none) := rfl
    rw [step, ih]
    by_cases same : key = first
    · subst same
      simp
    · simp [same]

theorem eraseKeys_insert {map : KeyMap Key Value} {key : Key} (fresh : map key = none)
    (value : Option Value) (keys : List Key) :
    eraseKeys (keys ++ [key]) (update map key value) = eraseKeys keys map := by
  funext other
  rw [eraseKeys_apply, eraseKeys_apply]
  by_cases same : other = key
  · subst same
    simp [fresh]
  · simp [same]

theorem eraseKeys_append (first second : List Key) (map : KeyMap Key Value) :
    eraseKeys (first ++ second) map = eraseKeys first (eraseKeys second map) := by
  funext key
  simp only [eraseKeys_apply, mem_append]
  by_cases inFirst : key ∈ first <;> by_cases inSecond : key ∈ second <;> simp [inFirst, inSecond]

end Keyed

section Entries

variable {Entry : Type} [BEq Entry] [LawfulBEq Entry]

theorem foldl_erase_append_new {entry : Entry} {index inserted : List Entry}
    (new : entry ∉ index) (unnoted : entry ∉ inserted) :
    (inserted ++ [entry]).foldl List.erase (index ++ [entry]) =
      inserted.foldl List.erase index := by
  induction inserted generalizing index with
  | nil => simp [erase_append_right _ new]
  | cons first rest ih =>
    have different : first ≠ entry := fun same => unnoted (by simp [same])
    have kept : (index ++ [entry]).erase first = index.erase first ++ [entry] := by
      by_cases present : first ∈ index
      · exact erase_append_left _ present
      · rw [erase_append_right _ present, erase_of_not_mem present,
          erase_of_not_mem (by simpa using different)]
    rw [cons_append, foldl_cons, foldl_cons, kept]
    apply ih
    · exact fun present => new (mem_of_mem_erase present)
    · exact fun present => unnoted (mem_cons_of_mem _ present)

theorem foldl_erase_append (first second index : List Entry) :
    (first ++ second).foldl List.erase index =
      first.foldl List.erase (second.foldl List.erase index) := by
  rw [← diff_eq_foldl, ← diff_eq_foldl, ← diff_eq_foldl, ← diff_append]
  exact List.Perm.diff_left index perm_append_comm

end Entries

namespace Generations

variable {Tag : Type}

/-- Every slot in use has a counter, and no counter of a free slot is at its end. -/
def Ready (generations : List UInt32) (size : ℕ) : Prop :=
  size ≤ generations.length ∧ ∀ slot, size ≤ slot → generations[slot]? ≠ some 0xFFFFFFFF

/-- Slots were taken into use, each under a later generation than it had. -/
structure Advances (generations : List UInt32) (size : ℕ) (generations' : List UInt32)
    (size' : ℕ) : Prop where
  grows : size ≤ size'
  known : size' ≤ generations'.length
  kept : ∀ slot, slot < size → generations'[slot]? = generations[slot]?
  free : ∀ slot, size' ≤ slot → generations'[slot]? = generations[slot]?
  used : ∀ slot generation, size ≤ slot → slot < size' →
    generations[slot]? = some generation →
    ∃ later, generations'[slot]? = some later ∧ generation.toNat < later.toNat

/-- What a change of a table does to its slots, as long as indices fit in 32 bits. -/
def Uses (generations : List UInt32) (size : ℕ) (generations' : List UInt32)
    (size' : ℕ) : Prop :=
  size ≤ size' ∧ (Ready generations size → size' ≤ 2 ^ 32 →
    Advances generations size generations' size')

theorem Uses.refl (generations : List UInt32) (size : ℕ) :
    Uses generations size generations size := by
  refine ⟨le_refl _, fun ready _ => ⟨le_refl _, ready.1, fun _ _ => rfl, fun _ _ => rfl, ?_⟩⟩
  intro slot generation lower upper
  omega

theorem Advances.ready {generations generations' : List UInt32} {size size' : ℕ}
    (advances : Advances generations size generations' size')
    (ready : Ready generations size) : Ready generations' size' := by
  refine ⟨advances.known, fun slot beyond => ?_⟩
  rw [advances.free slot beyond]
  exact ready.2 slot (le_trans advances.grows beyond)

theorem Uses.trans {generations middle last : List UInt32} {size size' size'' : ℕ}
    (first : Uses generations size middle size') (second : Uses middle size' last size'') :
    Uses generations size last size'' := by
  refine ⟨le_trans first.1 second.1, fun ready fits => ?_⟩
  have start := first.2 ready (le_trans second.1 fits)
  have finish := second.2 (start.ready ready) fits
  refine ⟨le_trans start.grows finish.grows, finish.known, ?_, ?_, ?_⟩
  · intro slot below
    rw [finish.kept slot (lt_of_lt_of_le below start.grows), start.kept slot below]
  · intro slot beyond
    rw [finish.free slot beyond, start.free slot (le_trans finish.grows beyond)]
  · intro slot generation lower upper stored
    by_cases early : slot < size'
    · rw [finish.kept slot early]
      exact start.used slot generation lower early stored
    · apply finish.used slot generation (by omega) upper
      rw [start.free slot (by omega), stored]

theorem next_toNat {generations : List UInt32} {index : ℕ} {generation : UInt32}
    (stored : generations[index]? = some generation) (spare : generation ≠ 0xFFFFFFFF) :
    (next generations index).toNat = generation.toNat + 1 := by
  have below : generation.toNat < 2 ^ 32 - 1 := by
    have bound := generation.toNat_lt
    have different : generation.toNat ≠ 2 ^ 32 - 1 := by
      intro same
      exact spare (UInt32.toNat_inj.mp same)
    omega
  have sum : (generation + 1).toNat = generation.toNat + 1 := by
    rw [UInt32.toNat_add]
    exact mod_eq_of_lt (show generation.toNat + 1 < 2 ^ 32 by omega)
  have nonzero : generation + 1 ≠ 0 := by
    intro zero
    rw [zero] at sum
    exact absurd sum (succ_ne_zero _).symm
  rw [next, stored]
  simp only [nonzero, if_false, sum]

theorem uses_next (generations : List UInt32) (size : ℕ) :
    Uses generations size (use generations (UInt32.ofNat size).toNat) (size + 1) := by
  refine ⟨le_succ size, fun ready fits => ?_⟩
  rw [toNat_index (by omega)]
  refine ⟨le_succ size, lt_length_use ready.1, ?_, ?_, ?_⟩
  · intro slot below
    exact getElem?_use_of_lt below ready.1
  · intro slot beyond
    rw [use]
    split
    · rw [getElem?_set_ne (by omega)]
    · have atEnd : size = generations.length := by
        have := ready.1
        omega
      rw [getElem?_eq_none (by simp only [length_append, length_singleton]; omega),
        getElem?_eq_none (by omega)]
  · intro slot generation lower upper stored
    have here : slot = size := by omega
    subst here
    refine ⟨_, getElem?_use_self ready.1, ?_⟩
    have spare : generation ≠ 0xFFFFFFFF := by
      intro same
      exact ready.2 slot lower (same ▸ stored)
    rw [next_toNat stored spare]
    exact lt_succ_self _

/-- The handle was given out at some time. -/
def Known (generations : List UInt32) (handle : Handle Tag) : Prop :=
  ∃ generation, generations[handle.index.toNat]? = some generation ∧
    handle.generation.toNat ≤ generation.toNat

/-- The handle was given out, and whatever uses its slot now came later. -/
def Stale (generations : List UInt32) (size : ℕ) (handle : Handle Tag) : Prop :=
  ∃ generation, generations[handle.index.toNat]? = some generation ∧
    handle.generation.toNat ≤ generation.toNat ∧
    (handle.index.toNat < size → handle.generation.toNat < generation.toNat)

section Handles

variable {generations generations' : List UInt32} {size size' : ℕ} {handle : Handle Tag}

theorem known_of_live (alive : live generations size handle = true) :
    Known generations handle :=
  ⟨handle.generation, (live_iff.mp alive).2.2, le_refl _⟩

theorem Advances.known_of_known (advances : Advances generations size generations' size')
    (known : Known generations handle) : Known generations' handle := by
  obtain ⟨generation, stored, earlier⟩ := known
  by_cases below : handle.index.toNat < size
  · exact ⟨generation, by rw [advances.kept _ below, stored], earlier⟩
  · by_cases beyond : size' ≤ handle.index.toNat
    · exact ⟨generation, by rw [advances.free _ beyond, stored], earlier⟩
    · obtain ⟨later, stored', after⟩ := advances.used _ generation (by omega) (by omega) stored
      exact ⟨later, stored', by omega⟩

theorem stale_of_known (known : Known generations handle)
    (gone : size ≤ handle.index.toNat) : Stale generations size handle := by
  obtain ⟨generation, stored, earlier⟩ := known
  exact ⟨generation, stored, earlier, fun inside => by omega⟩

theorem Advances.stale_of_stale (advances : Advances generations size generations' size')
    (stale : Stale generations size handle) : Stale generations' size' handle := by
  obtain ⟨generation, stored, earlier, strictly⟩ := stale
  by_cases below : handle.index.toNat < size
  · refine ⟨generation, by rw [advances.kept _ below, stored], earlier, fun _ => strictly below⟩
  · by_cases beyond : size' ≤ handle.index.toNat
    · refine ⟨generation, by rw [advances.free _ beyond, stored], earlier, fun inside => ?_⟩
      omega
    · obtain ⟨later, stored', after⟩ := advances.used _ generation (by omega) (by omega) stored
      exact ⟨later, stored', by omega, fun _ => by omega⟩

theorem Stale.shrink (stale : Stale generations size handle) (smaller : size' ≤ size) :
    Stale generations size' handle := by
  obtain ⟨generation, stored, earlier, strictly⟩ := stale
  exact ⟨generation, stored, earlier, fun inside => strictly (by omega)⟩

theorem Stale.not_live (stale : Stale generations size handle) :
    live generations size handle = false := by
  obtain ⟨generation, stored, -, strictly⟩ := stale
  by_contra alive
  obtain ⟨-, inside, current⟩ := live_iff.mp (by simpa using alive)
  rw [stored, Option.some.injEq] at current
  have := strictly inside
  rw [current] at this
  exact lt_irrefl _ this

end Handles

end Generations

end Aburi.Lib
