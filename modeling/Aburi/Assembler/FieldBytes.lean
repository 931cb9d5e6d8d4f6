import Aburi.Assembler.FinalPositions
import Aburi.Lib.ByteLayout

/-!
# Fields in the bytes of a section

A field that is read back as a signed number of its width gives the number that
was stored exactly when that number fits.  In a section that is put together
from raw bytes and chunks, every chunk and every raw byte stands behind the
sizes that precede it.
-/

namespace Aburi.Asm

open Aburi.Lib Assembler List Int

/-- The number in a field of a few bytes, with its sign. -/
def signedField (bytes : List UInt8) : Word64 :=
  BitVec.ofInt 64 (bmod (Lib.littleEndian bytes) (2 ^ (8 * bytes.length)))

/-- The number has a signed field of so many bits. -/
def fitsSigned (bits : ℕ) (value : Word64) : Bool :=
  decide (-(2 ^ (bits - 1)) ≤ value.toInt) && decide (value.toInt < 2 ^ (bits - 1))

theorem fitsSigned_iff {bits : ℕ} {value : Word64} :
    fitsSigned bits value = true ↔
      -(2 ^ (bits - 1)) ≤ value.toInt ∧ value.toInt < 2 ^ (bits - 1) := by
  simp [fitsSigned]

theorem littleEndian_eq_scalar (width : ℕ) (value : Word64) :
    littleEndian width value = scalar .lsb value.toNat width := by
  rw [littleEndian, scalar]
  apply map_congr_left
  intro index _
  rw [BitVec.toNat_ushiftRight, UInt8.ofNat_mod_size]
  simp

theorem signedField_bmod (value : Word64) {bits : ℕ} (positive : 0 < bits) (narrow : bits ≤ 63) :
    BitVec.ofInt 64 (bmod value.toInt (2 ^ bits)) = value ↔ fitsSigned bits value = true := by
  obtain ⟨half, rfl⟩ : ∃ half, bits = half + 1 := ⟨bits - 1, by omega⟩
  have power : ((2 ^ (half + 1) : ℕ) : ℤ) = 2 * 2 ^ half := by
    rw [Nat.pow_succ]
    push_cast
    ring
  have wide : (2 : ℤ) ^ half ≤ 2 ^ 62 := by
    exact_mod_cast Nat.pow_le_pow_right (by decide) (show half ≤ 62 by omega)
  have low := le_bmod (x := value.toInt) (m := 2 ^ (half + 1)) (Nat.two_pow_pos _)
  have high := bmod_lt (x := value.toInt) (m := 2 ^ (half + 1)) (Nat.two_pow_pos _)
  rw [fitsSigned_iff, Nat.add_sub_cancel]
  constructor
  · intro same
    have number := congrArg BitVec.toInt same
    rw [BitVec.toInt_ofInt, bmod_eq_of_le (by omega) (by omega)] at number
    omega
  · rintro ⟨atLeast, below⟩
    rw [bmod_eq_of_le (by omega) (by omega), BitVec.ofInt_toInt]

/-- What is stored in a field is read back exactly when it fits. -/
theorem signedField_littleEndian (value : Word64) {width : ℕ} (positive : 0 < width)
    (narrow : width ≤ 7) :
    signedField (littleEndian width value) = value ↔ fitsSigned (8 * width) value = true := by
  have number : Lib.littleEndian (littleEndian width value) = value.toNat % 256 ^ width := by
    rw [littleEndian_eq_scalar, littleEndian_scalar]
  have length : (littleEndian width value).length = width := by simp [littleEndian]
  have power : (256 : ℕ) ^ width = 2 ^ (8 * width) := by rw [Nat.pow_mul]
  have divides : ((2 ^ (8 * width) : ℕ) : ℤ) ∣ ((2 ^ 64 : ℕ) : ℤ) := by
    rw [natCast_dvd_natCast]
    apply Nat.pow_dvd_pow
    omega
  have reduced : bmod ((value.toNat % 256 ^ width : ℕ) : ℤ) (2 ^ (8 * width)) =
      bmod value.toInt (2 ^ (8 * width)) := by
    rw [power, natCast_mod, emod_bmod, BitVec.toInt_eq_toNat_bmod,
      bmod_bmod_of_dvd (Int.natCast_dvd_natCast.mp divides)]
  rw [signedField, number, length, reduced]
  exact signedField_bmod value (by omega) (by omega)

theorem sizesBefore_cons (field : DeferredField) (fields : List DeferredField) (count : ℕ) :
    sizesBefore (field :: fields) (count + 1) = field.size + sizesBefore fields count := by
  rw [sizesBefore, take_succ_cons, map_cons, sum_cons, sizesBefore]

variable {bytes : List UInt8} {fields : List DeferredField} {chunks : List (List UInt8)}

/-- Every chunk stands behind the raw bytes and the chunks that precede it. -/
theorem interleave_chunk {cursor index : ℕ} {field : DeferredField} {chunk : List UInt8}
    (between : Between cursor bytes.length (offsetsOf fields))
    (sizes : chunks.map length = fields.map DeferredField.size)
    (isField : fields[index]? = some field) (isChunk : chunks[index]? = some chunk) :
    ∃ front back, interleave bytes cursor fields chunks = front ++ chunk ++ back ∧
      front.length + cursor = field.rawOffset + sizesBefore fields index := by
  induction fields generalizing cursor index chunks with
  | nil => cases isField
  | cons first fields induction =>
    cases chunks with
    | nil => cases isChunk
    | cons firstChunk chunks =>
      obtain ⟨after, rest⟩ := between
      have inside := rest.le
      have gap : ((bytes.drop cursor).take (first.rawOffset - cursor)).length =
          first.rawOffset - cursor := by
        rw [length_take, length_drop]
        omega
      rw [map_cons, map_cons, List.cons.injEq] at sizes
      cases index with
      | zero =>
        cases isField
        cases isChunk
        refine ⟨_, _, rfl, ?_⟩
        rw [gap, sizesBefore]
        simp
        omega
      | succ index =>
        rw [getElem?_cons_succ] at isField isChunk
        obtain ⟨front, back, isWhole, isPlace⟩ := induction rest sizes.2 isField isChunk
        refine ⟨(bytes.drop cursor).take (first.rawOffset - cursor) ++ firstChunk ++ front,
          back, ?_, ?_⟩
        · rw [Assembler.interleave, isWhole]
          simp only [append_assoc]
        · rw [length_append, length_append, gap, sizesBefore_cons, sizes.1]
          omega

/-- The number of fields at or before a raw place. -/
def fieldsUpTo (fields : List DeferredField) (place : ℕ) : ℕ :=
  fields.countP fun field => decide (field.rawOffset ≤ place)

theorem fieldsUpTo_zero {first last place : ℕ} (between : Between first last (offsetsOf fields))
    (before : place < first) :
    fieldsUpTo fields place = 0 := by
  induction fields generalizing first with
  | nil => rfl
  | cons field fields induction =>
    obtain ⟨after, rest⟩ := between
    rw [fieldsUpTo, countP_cons_of_neg (by simp; omega)]
    exact induction rest (by omega)

theorem interleave_raw {cursor place : ℕ} (between : Between cursor bytes.length (offsetsOf fields))
    (sizes : chunks.map length = fields.map DeferredField.size) (after : cursor ≤ place)
    (inside : place < bytes.length) :
    (interleave bytes cursor fields chunks)[
      place - cursor + sizesBefore fields (fieldsUpTo fields place)]? = bytes[place]? := by
  induction fields generalizing cursor chunks with
  | nil =>
    rw [interleave_nil, getElem?_drop]
    simp only [fieldsUpTo, countP_nil, sizesBefore, take_nil, map_nil, sum_nil]
    congr 1
    omega
  | cons field fields induction =>
    cases chunks with
    | nil => cases sizes
    | cons chunk chunks =>
      obtain ⟨fieldAfter, rest⟩ := between
      have fieldInside := rest.le
      have gap : ((bytes.drop cursor).take (field.rawOffset - cursor)).length =
          field.rawOffset - cursor := by
        rw [length_take, length_drop]
        omega
      rw [map_cons, map_cons, List.cons.injEq] at sizes
      by_cases reached : field.rawOffset ≤ place
      · have counted : fieldsUpTo (field :: fields) place = fieldsUpTo fields place + 1 :=
          countP_cons_of_pos (by simpa using reached)
        rw [counted, sizesBefore_cons, Assembler.interleave, ← induction rest sizes.2 reached]
        rw [getElem?_append_right]
        · congr 1
          rw [length_append, gap, sizes.1]
          omega
        · rw [length_append, gap, sizes.1]
          omega
      · -- the byte stands before the first field
        have uncounted : fieldsUpTo (field :: fields) place = 0 := by
          rw [fieldsUpTo, countP_cons_of_neg (by simpa using reached)]
          exact fieldsUpTo_zero rest (by omega)
        rw [uncounted, Assembler.interleave, sizesBefore, append_assoc]
        rw [getElem?_append_left (by rw [gap]; simp; omega)]
        rw [getElem?_take_of_lt (by simp; omega), getElem?_drop]
        congr 1
        simp
        omega

/-- The bytes of a section agree with the sizes of its fields. -/
structure BytesAgree (raw final : List UInt8) (fields : List DeferredField)
    (chunks : List (List UInt8)) : Prop where
  length : final.length = raw.length + sizesBefore fields fields.length
  chunk : ∀ index field chunk, fields[index]? = some field → chunks[index]? = some chunk →
    chunk.length = field.size ∧
      (final.drop (field.rawOffset + sizesBefore fields index)).take field.size = chunk
  raw : ∀ place < raw.length,
    final[place + sizesBefore fields (fieldsUpTo fields place)]? = raw[place]?

theorem interleave_agrees (between : Between 0 bytes.length (offsetsOf fields))
    (sizes : chunks.map length = fields.map DeferredField.size) :
    BytesAgree bytes (interleave bytes 0 fields chunks) fields chunks := by
  have paired : chunks.length = fields.length := by
    have lengths := congrArg length sizes
    rwa [length_map, length_map] at lengths
  constructor
  · rw [interleave_length between paired, sizes, sizesBefore, take_length]
    rfl
  · intro index field chunk isField isChunk
    have isSize : chunk.length = field.size := by
      have entries := congrArg (fun list => list[index]?) sizes
      simp only [getElem?_map, isField, isChunk, Option.map_some] at entries
      exact Option.some.inj entries
    obtain ⟨front, back, isWhole, isPlace⟩ := interleave_chunk between sizes isField isChunk
    refine ⟨isSize, ?_⟩
    rw [isWhole, ← isPlace, Nat.add_zero, append_assoc, drop_left, ← isSize, take_left]
  · intro place inside
    exact interleave_raw between sizes (Nat.zero_le _) inside

end Aburi.Asm
