import Mathlib.Logic.Function.Basic
import Mathlib.Data.Nat.Notation

/-!
# Growing tables

A table of slots that is only ever extended at its end and overwritten in
place.  Slot zero is a placeholder, so that zero can serve as the name of
nothing.
-/

namespace Aburi.Lib

structure Slots (α : Type) where
  size : ℕ
  get : ℕ → α

namespace Slots

variable {α : Type}

def initial (placeholder : α) : Slots α := ⟨1, fun _ => placeholder⟩

def isValid (slots : Slots α) (index : ℕ) : Bool :=
  decide (0 < index) && decide (index < slots.size)

def set (slots : Slots α) (index : ℕ) (entry : α) : Slots α :=
  { slots with get := Function.update slots.get index entry }

def push (slots : Slots α) (entry : α) : Slots α where
  size := slots.size + 1
  get := Function.update slots.get slots.size entry

def map (slots : Slots α) (change : α → α) : Slots α :=
  { slots with get := fun index => change (slots.get index) }

theorem isValid_iff {slots : Slots α} {index : ℕ} :
    slots.isValid index = true ↔ 0 < index ∧ index < slots.size := by
  simp [isValid]

section

variable (slots : Slots α)
include slots

@[simp] theorem get_set_self (index : ℕ) (entry : α) :
    (slots.set index entry).get index = entry := by
  simp [set]

theorem get_set_ne {index other : ℕ} (entry : α) (different : other ≠ index) :
    (slots.set index entry).get other = slots.get other := by
  simp [set, different]

@[simp] theorem get_push_self (entry : α) : (slots.push entry).get slots.size = entry := by
  simp [push]

theorem get_push_ne {index : ℕ} (entry : α) (different : index ≠ slots.size) :
    (slots.push entry).get index = slots.get index := by
  simp [push, different]

theorem get_push_of_valid {index : ℕ} (entry : α) (valid : index < slots.size) :
    (slots.push entry).get index = slots.get index :=
  get_push_ne slots entry (Nat.ne_of_lt valid)

theorem set_push_self (first second : α) :
    (slots.push first).set slots.size second = slots.push second := by
  simp [push, set]

end

end Slots

end Aburi.Lib
