import Aburi.Backend.ElfLayout
import Mathlib.Tactic.NormNum

/-!
# The records of an ELF object

Each record is read back from where it was written, if its values fit its
fields.  The info field of a relocation packs an index and a type, and its
addend is in two's complement.
-/

namespace Aburi.Backend.Elf

open Aburi.Lib Nat List

section Headers

variable {cls : ElfClass} {data : ByteOrder} {bytes : List UInt8} {offset : ℕ}

structure HeaderSlot.Fits (cls : ElfClass) (slot : HeaderSlot) : Prop where
  name : slot.name < 256 ^ 4
  shType : slot.shType < 256 ^ 4
  flags : cls.Fits slot.flags
  offset : cls.Fits slot.offset
  size : cls.Fits slot.size
  link : slot.link < 256 ^ 4
  info : slot.info < 256 ^ 4
  align : cls.Fits slot.align
  entsize : cls.Fits slot.entsize

theorem readHeader_of_hasAt {slot : HeaderSlot} (fits : slot.Fits cls)
    (has : HasAt bytes offset (writeHeader cls data slot)) :
    readHeader cls data bytes offset = some slot := by
  have fields := readFields_of_hasAt has
  simp only [headerFields, map_cons, map_nil] at fields
  rw [readHeader, fields]
  simp only [mod_eq_of_lt fits.name, mod_eq_of_lt fits.shType,
    mod_eq_of_lt fits.flags, mod_eq_of_lt fits.offset, mod_eq_of_lt fits.size,
    mod_eq_of_lt fits.link, mod_eq_of_lt fits.info, mod_eq_of_lt fits.align,
    mod_eq_of_lt fits.entsize]

theorem length_writeHeader (slot : HeaderSlot) :
    (writeHeader cls data slot).length = cls.shdrSize := by
  rw [writeHeader, length_writeFields]
  cases cls <;> rfl

structure SymtabEntry.Fits (cls : ElfClass) (entry : SymtabEntry) : Prop where
  name : entry.name < 256 ^ 4
  info : entry.info < 256 ^ 1
  other : entry.other < 256 ^ 1
  shndx : entry.shndx < 256 ^ 2
  value : cls.Fits entry.value
  size : cls.Fits entry.size

theorem readSymbol_of_hasAt {entry : SymtabEntry} (fits : entry.Fits cls)
    (has : HasAt bytes offset (writeSymbol cls data entry)) :
    readSymbol cls data bytes offset = some entry := by
  have fields := readFields_of_hasAt has
  obtain ⟨name, info, other, shndx, value, size⟩ := fits
  cases cls with
  | elf32 =>
    simp only [symbolFields, map_cons, map_nil] at fields
    simp only [readSymbol, fields, mod_eq_of_lt name, mod_eq_of_lt info,
      mod_eq_of_lt other, mod_eq_of_lt shndx, mod_eq_of_lt (show _ < 256 ^ 4 from value),
      mod_eq_of_lt (show _ < 256 ^ 4 from size)]
  | elf64 =>
    simp only [symbolFields, map_cons, map_nil] at fields
    simp only [readSymbol, fields, mod_eq_of_lt name, mod_eq_of_lt info,
      mod_eq_of_lt other, mod_eq_of_lt shndx, mod_eq_of_lt (show _ < 256 ^ 8 from value),
      mod_eq_of_lt (show _ < 256 ^ 8 from size)]

theorem length_writeSymbol (entry : SymtabEntry) :
    (writeSymbol cls data entry).length = cls.symEntsize := by
  rw [writeSymbol, length_writeFields]
  cases cls <;> rfl

theorem length_writeReloc (index : ℕ) (reloc : ElfReloc) :
    (writeReloc cls data index reloc).length = cls.relaEntsize := by
  rw [writeReloc, length_writeFields]
  cases cls <;> rfl

end Headers

section Relocations

/-- Packing of a high part and a low part of the given width. -/
theorem pack_div_mod (high : ℕ) {low width : ℕ} (fits : low < 2 ^ width) :
    (high <<< width ||| low) / 2 ^ width = high ∧ (high <<< width ||| low) % 2 ^ width = low := by
  rw [← shiftLeft_add_eq_or_of_lt fits, shiftLeft_eq, mul_comm]
  constructor
  · rw [mul_add_div (Nat.two_pow_pos width), div_eq_of_lt fits, Nat.add_zero]
  · rw [mul_add_mod, mod_eq_of_lt fits]

theorem pack_lt {high low width bits : ℕ} (fits : low < 2 ^ width) (fitsHigh : high < 2 ^ bits) :
    high <<< width ||| low < 2 ^ (bits + width) := by
  rw [← shiftLeft_add_eq_or_of_lt fits, shiftLeft_eq, pow_add]
  calc high * 2 ^ width + low < high * 2 ^ width + 2 ^ width := by omega
    _ = (high + 1) * 2 ^ width := by ring
    _ ≤ 2 ^ bits * 2 ^ width := Nat.mul_le_mul_right _ fitsHigh

theorem toInt_eq_toNat (value : Int64) :
    value.toInt = if 2 * value.toUInt64.toNat < 2 ^ 64 then (value.toUInt64.toNat : ℤ)
      else value.toUInt64.toNat - 2 ^ 64 := by
  have same := BitVec.toInt_eq_toNat_cond value.toBitVec
  have bits : value.toUInt64.toNat = value.toBitVec.toNat := rfl
  rw [bits]
  simpa using same

theorem signed_addend64 (value : Int64) :
    signed 8 (value.toUInt64.toNat % 256 ^ 8) = value.toInt := by
  have bound : value.toUInt64.toNat < 256 ^ 8 := value.toUInt64.toNat_lt
  rw [signed, mod_eq_of_lt bound, toInt_eq_toNat]
  norm_num

theorem signed_addend32 {value : Int64} (low : -2 ^ 31 ≤ value.toInt)
    (high : value.toInt < 2 ^ 31) :
    signed 4 (value.toUInt64.toNat % 256 ^ 4) = value.toInt := by
  have bound := value.toUInt64.toNat_lt
  rw [toInt_eq_toNat] at low high ⊢
  rw [signed]
  split <;> split <;> split at low <;> omega

variable {cls : ElfClass} {data : ByteOrder} {bytes : List UInt8} {offset index : ℕ}

/-- The index fits the info field of a relocation. -/
def ElfClass.FitsIndex (cls : ElfClass) (index : ℕ) : Prop :=
  index < match cls with
    | .elf32 => 2 ^ 24
    | .elf64 => 2 ^ 32

theorem readRela_of_hasAt {reloc : ElfReloc} (fits : reloc.Fits cls)
    (fitsIndex : cls.FitsIndex index)
    (has : HasAt bytes offset (writeReloc cls data index reloc)) :
    readRela cls data bytes offset =
      some ⟨reloc.offset.toNat, index, reloc.type.toNat, reloc.addend.toInt⟩ := by
  have fields := readFields_of_hasAt has
  cases cls with
  | elf64 =>
    have typeFits : reloc.type.toNat < 2 ^ 32 := reloc.type.toNat_lt
    obtain ⟨high, low⟩ := pack_div_mod index typeFits
    have packed : index <<< 32 ||| reloc.type.toNat < 256 ^ 8 := by
      rw [show 256 ^ 8 = 2 ^ (32 + 32) by norm_num]
      exact pack_lt typeFits fitsIndex
    simp only [relocFields, map_cons, map_nil] at fields
    simp only [readRela, fields, mod_eq_of_lt packed, high, low, signed_addend64,
      mod_eq_of_lt (show _ < 256 ^ 8 from fits.offset)]
  | elf32 =>
    have typeFits : reloc.type.toNat < 2 ^ 8 := fits.type rfl
    have masked : reloc.type.toNat &&& 0xff = reloc.type.toNat := by
      rw [show 0xff = 2 ^ 8 - 1 from rfl, and_two_pow_sub_one_eq_mod, mod_eq_of_lt typeFits]
    obtain ⟨high, low⟩ := pack_div_mod index typeFits
    have packed : index <<< 8 ||| reloc.type.toNat < 256 ^ 4 := by
      rw [show 256 ^ 4 = 2 ^ (24 + 8) by norm_num]
      exact pack_lt typeFits fitsIndex
    obtain ⟨lowest, highest⟩ := fits.addend rfl
    simp only [relocFields, map_cons, map_nil, masked] at fields
    simp only [readRela, fields, mod_eq_of_lt packed, high, low,
      signed_addend32 lowest highest, mod_eq_of_lt (show _ < 256 ^ 4 from fits.offset)]

end Relocations

end Aburi.Backend.Elf
