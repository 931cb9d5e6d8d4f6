import Mathlib.Algebra.Order.Ring.Nat
import Mathlib.Data.List.Basic
import Mathlib.Tactic.Ring

/-!
# Layout of binary files

Numbers of a fixed width in either byte order, records of such numbers, tables
of records, strings that end with a zero, and the blocks of a file: a block
stands at an offset, and what is appended or written elsewhere leaves it there.
A reader of a block knows only the bytes of the file and the offset.
-/

namespace Aburi.Lib

open List

/-- Texts are lists of bytes, and they are equal when their bytes are. -/
instance lawfulBytes : LawfulBEq (List UInt8) := inferInstance

inductive ByteOrder where
  | lsb
  | msb
  deriving DecidableEq

theorem exists_short {ε : Type} {written : Except ε (List UInt8)} {bound : ℕ}
    (short : written.toOption.any (·.length < bound) = true) :
    ∃ bytes, written = .ok bytes ∧ bytes.length < bound := by
  cases written with
  | error => cases short
  | ok bytes => exact ⟨bytes, rfl, of_decide_eq_true short⟩

section Scalars

/-- The bytes of a number of the given width; higher bytes are dropped. -/
def scalar (order : ByteOrder) (value size : ℕ) : List UInt8 :=
  (range size).map fun i =>
    let shift := if order = .msb then size - 1 - i else i
    UInt8.ofNat (value >>> (8 * shift))

def littleEndian : List UInt8 → ℕ
  | [] => 0
  | byte :: bytes => byte.toNat + 256 * littleEndian bytes

def ofBytes (order : ByteOrder) (bytes : List UInt8) : ℕ :=
  match order with
  | .lsb => littleEndian bytes
  | .msb => littleEndian bytes.reverse

@[simp] theorem length_scalar (order : ByteOrder) (value size : ℕ) :
    (scalar order value size).length = size := by
  simp [scalar]

theorem scalar_lsb_succ (value size : ℕ) :
    scalar .lsb value (size + 1) = UInt8.ofNat value :: scalar .lsb (value / 256) size := by
  simp only [scalar, range_succ_eq_map, map_cons, map_map]
  refine congrArg₂ cons (by simp) (map_congr_left ?_)
  intro i _
  simp only [Function.comp_apply, reduceCtorEq, if_false, Nat.shiftRight_eq_div_pow,
    Nat.div_div_eq_div_mul]
  congr 2
  rw [Nat.mul_succ, pow_add, mul_comm]
  rfl

theorem scalar_msb (value size : ℕ) :
    scalar .msb value size = (scalar .lsb value size).reverse := by
  apply ext_getElem
  · simp
  · intro i inside _
    simp [scalar]

theorem littleEndian_scalar (value size : ℕ) :
    littleEndian (scalar .lsb value size) = value % 256 ^ size := by
  induction size generalizing value with
  | zero => simp [scalar, littleEndian, Nat.mod_one]
  | succ size ih =>
    have power : 256 ^ (size + 1) = 256 * 256 ^ size := by ring
    rw [scalar_lsb_succ, littleEndian, ih, UInt8.toNat_ofNat', power, Nat.mod_mul]

/-- The number that is read is the one that was written, up to the width. -/
theorem ofBytes_scalar (order : ByteOrder) (value size : ℕ) :
    ofBytes order (scalar order value size) = value % 256 ^ size := by
  cases order with
  | lsb => exact littleEndian_scalar value size
  | msb => rw [ofBytes, scalar_msb, reverse_reverse, littleEndian_scalar]

end Scalars

section Blocks

variable {bytes block : List UInt8} {offset : ℕ}

/-- The block stands in the bytes at the offset. -/
def HasAt (bytes : List UInt8) (offset : ℕ) (block : List UInt8) : Prop :=
  ∃ before after, bytes = before ++ (block ++ after) ∧ before.length = offset

theorem hasAt_end (before block : List UInt8) : HasAt (before ++ block) before.length block :=
  ⟨before, [], by simp, rfl⟩

theorem HasAt.extend (has : HasAt bytes offset block) (more : List UInt8) :
    HasAt (bytes ++ more) offset block := by
  obtain ⟨before, after, rfl, rfl⟩ := has
  exact ⟨before, after ++ more, by simp, rfl⟩

theorem HasAt.grow {grown : List UInt8} (has : HasAt bytes offset block)
    (grows : bytes <+: grown) : HasAt grown offset block := by
  obtain ⟨more, rfl⟩ := grows
  exact has.extend more

theorem HasAt.head {rest : List UInt8} (has : HasAt bytes offset (block ++ rest)) :
    HasAt bytes offset block := by
  obtain ⟨before, after, rfl, rfl⟩ := has
  exact ⟨before, rest ++ after, by simp, rfl⟩

theorem HasAt.tail {front : List UInt8} (has : HasAt bytes offset (front ++ block)) :
    HasAt bytes (offset + front.length) block := by
  obtain ⟨before, after, rfl, rfl⟩ := has
  exact ⟨before ++ front, after, by simp, by simp⟩

theorem HasAt.slice (has : HasAt bytes offset block) :
    (bytes.drop offset).take block.length = block := by
  obtain ⟨before, after, rfl, rfl⟩ := has
  simp

theorem HasAt.le (has : HasAt bytes offset block) : offset + block.length ≤ bytes.length := by
  obtain ⟨before, after, rfl, rfl⟩ := has
  simp

/-- A block behind the first bytes survives that these are written again. -/
theorem HasAt.overwrite {header : List UInt8} (behind : header.length ≤ offset)
    (has : HasAt bytes offset block) :
    HasAt (header ++ bytes.drop header.length) offset block := by
  obtain ⟨before, after, rfl, rfl⟩ := has
  refine ⟨header ++ before.drop header.length, after, ?_, ?_⟩
  · rw [drop_append_of_le_length behind, append_assoc]
  · rw [length_append, length_drop]
    omega

/-- Zeros up to the next multiple of the alignment. -/
def padTo (alignment : ℕ) (bytes : List UInt8) : List UInt8 :=
  bytes ++ replicate ((alignment - bytes.length % alignment) % alignment) 0

theorem length_padTo_mod {alignment : ℕ} (positive : 0 < alignment) :
    (padTo alignment bytes).length % alignment = 0 := by
  rw [padTo, length_append, length_replicate]
  have below := Nat.mod_lt bytes.length positive
  by_cases aligned : bytes.length % alignment = 0
  · rw [aligned, Nat.sub_zero, Nat.mod_self, Nat.add_zero, aligned]
  · rw [Nat.mod_eq_of_lt (by omega : alignment - bytes.length % alignment < alignment)]
    have division := Nat.div_add_mod bytes.length alignment
    have whole : bytes.length + (alignment - bytes.length % alignment) =
        alignment * (bytes.length / alignment + 1) := by
      rw [Nat.mul_succ]
      omega
    rw [whole, Nat.mul_mod_right]

theorem length_le_padTo (alignment : ℕ) : bytes.length ≤ (padTo alignment bytes).length := by
  simp [padTo]

end Blocks

section Records

/-- A record as the widths and the values of its fields. -/
def writeFields (order : ByteOrder) (fields : List (ℕ × ℕ)) : List UInt8 :=
  fields.flatMap fun field => scalar order field.2 field.1

def readFields (order : ByteOrder) (bytes : List UInt8) : ℕ → List ℕ → Option (List ℕ)
  | _, [] => some []
  | offset, width :: widths =>
    let block := (bytes.drop offset).take width
    if block.length = width then
      (readFields order bytes (offset + width) widths).map (ofBytes order block :: ·)
    else none

theorem length_writeFields (order : ByteOrder) (fields : List (ℕ × ℕ)) :
    (writeFields order fields).length = (fields.map Prod.fst).sum := by
  simp [writeFields, length_flatMap]

/-- What was written is read back, up to the widths of the fields. -/
theorem readFields_of_hasAt {order : ByteOrder} {bytes : List UInt8} {offset : ℕ}
    {fields : List (ℕ × ℕ)} (has : HasAt bytes offset (writeFields order fields)) :
    readFields order bytes offset (fields.map Prod.fst) =
      some (fields.map fun field => field.2 % 256 ^ field.1) := by
  induction fields generalizing offset with
  | nil => rfl
  | cons field fields ih =>
    obtain ⟨width, value⟩ := field
    rw [writeFields, flatMap_cons] at has
    have slice := has.head.slice
    have rest := has.tail
    simp only [length_scalar] at slice rest
    simp only [map_cons, readFields, slice, length_scalar, if_true,
      ih rest, Option.map_some, ofBytes_scalar]

end Records

section Tables

variable {α β : Type}

/-- The entries of a table that starts at the offset. -/
def readTable (read : ℕ → Option α) (entrySize : ℕ) : ℕ → ℕ → Option (List α)
  | _, 0 => some []
  | offset, count + 1 =>
    match read offset, readTable read entrySize (offset + entrySize) count with
    | some entry, some entries => some (entry :: entries)
    | _, _ => none

theorem readTable_of_hasAt {bytes : List UInt8} {read : ℕ → Option α} {entrySize offset : ℕ}
    {encode : β → List UInt8} (view : β → α) {entries : List β}
    (sizes : ∀ entry ∈ entries, (encode entry).length = entrySize)
    (has : HasAt bytes offset (entries.flatMap encode))
    (reads : ∀ entry ∈ entries, ∀ at', HasAt bytes at' (encode entry) →
      read at' = some (view entry)) :
    readTable read entrySize offset entries.length = some (entries.map view) := by
  induction entries generalizing offset with
  | nil => rfl
  | cons entry entries ih =>
    rw [flatMap_cons] at has
    have rest := has.tail
    rw [sizes entry (mem_cons_self ..)] at rest
    have others := ih (fun entry mem => sizes entry (mem_cons_of_mem _ mem))
      rest (fun entry mem => reads entry (mem_cons_of_mem _ mem))
    simp only [length_cons, readTable, map_cons,
      reads entry (mem_cons_self ..) offset has.head, others]

theorem length_flatMap_const {encode : β → List UInt8} {entrySize : ℕ} {entries : List β}
    (sizes : ∀ entry ∈ entries, (encode entry).length = entrySize) :
    (entries.flatMap encode).length = entries.length * entrySize := by
  induction entries with
  | nil => simp
  | cons entry entries ih =>
    rw [flatMap_cons, length_append, sizes entry (mem_cons_self ..),
      ih (fun entry mem => sizes entry (mem_cons_of_mem _ mem)),
      length_cons]
    ring

end Tables

section Strings

/-- The string that starts at the offset and ends before the next zero. -/
def cString (bytes : List UInt8) (offset : ℕ) : List UInt8 :=
  (bytes.drop offset).takeWhile (· != 0)

theorem cString_of_hasAt {bytes text : List UInt8} {offset : ℕ}
    (has : HasAt bytes offset (text ++ [0])) (noZero : 0 ∉ text) :
    cString bytes offset = text := by
  obtain ⟨before, after, rfl, rfl⟩ := has
  rw [cString, drop_left, append_assoc]
  rw [takeWhile_append_of_pos]
  · simp
  · intro byte mem
    simp only [bne_iff_ne, ne_eq]
    rintro rfl
    exact noZero mem

end Strings

end Aburi.Lib
