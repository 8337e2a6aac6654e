import Mathlib.Data.BitVec
import Mathlib.Data.List.GetD
import Mathlib.Tactic.Common

/-!
# Little-endian words in a byte memory

A memory is a total function from addresses to bytes. A word of `width` bytes
is read with its least significant byte first. The two views, byte by byte and
word by word, are related only through `byteOf`, so that a proof about a word
operation never unfolds the bit layout again.
-/

namespace LittleEndian

set_option autoImplicit false

abbrev Memory := Nat → UInt8

/-- Byte `index` of a word, counted from the least significant end. -/
def byteOf {bits : Nat} (word : BitVec bits) (index : Nat) : UInt8 :=
  UInt8.ofBitVec (word.extractLsb' (8 * index) 8)

def wordValue : Nat → Memory → Nat → Nat
  | 0, _, _ => 0
  | width + 1, memory, address =>
      (memory address).toNat + 256 * wordValue width memory (address + 1)

def readWord (width : Nat) (memory : Memory) (address : Nat) : BitVec (8 * width) :=
  BitVec.ofNat (8 * width) (wordValue width memory address)

def writeWord (width : Nat) (memory : Memory) (address : Nat)
    (word : BitVec (8 * width)) : Memory :=
  fun position =>
    if address ≤ position ∧ position < address + width then
      byteOf word (position - address)
    else memory position

theorem byte_of_get_bit {bits : Nat} (word : BitVec bits) (index bit : Nat) (inByte : bit < 8) :
    (byteOf word index).toBitVec.getLsbD bit = word.getLsbD (8 * index + bit) := by
  simp [byteOf, inByte]

theorem word_value_test_bit (width : Nat) (memory : Memory) (address bit : Nat)
    (inWord : bit < 8 * width) :
    (wordValue width memory address).testBit bit =
      (memory (address + bit / 8)).toBitVec.getLsbD (bit % 8) := by
  induction width generalizing address bit with
  | zero => omega
  | succ width induction =>
      have low : (memory address).toNat < 2 ^ 8 := (memory address).toNat_lt
      have split : wordValue (width + 1) memory address =
          2 ^ 8 * wordValue width memory (address + 1) + (memory address).toNat := by
        simp only [wordValue]
        omega
      rw [split, Nat.testBit_two_pow_mul_add _ low]
      split_ifs with first
      · have quotient : bit / 8 = 0 := by omega
        have rest : bit % 8 = bit := by omega
        rw [quotient, rest, Nat.add_zero]
        rfl
      · have quotient : bit / 8 = (bit - 8) / 8 + 1 := by omega
        have rest : bit % 8 = (bit - 8) % 8 := by omega
        rw [induction (address + 1) (bit - 8) (by omega), quotient, rest, Nat.add_assoc,
          Nat.add_comm 1]

theorem read_word_get_bit (width : Nat) (memory : Memory) (address bit : Nat)
    (inWord : bit < 8 * width) :
    (readWord width memory address).getLsbD bit =
      (memory (address + bit / 8)).toBitVec.getLsbD (bit % 8) := by
  rw [readWord, BitVec.getLsbD_ofNat, word_value_test_bit width memory address bit inWord]
  simp only [inWord, decide_true, Bool.true_and]

theorem byte_ext {left right : UInt8}
    (same : ∀ bit, bit < 8 → left.toBitVec.getLsbD bit = right.toBitVec.getLsbD bit) :
    left = right :=
  UInt8.toBitVec_inj.mp (BitVec.eq_of_getLsbD_eq same)

theorem word_ext {width : Nat} {left right : BitVec (8 * width)}
    (same : ∀ index, index < width → byteOf left index = byteOf right index) :
    left = right := by
  apply BitVec.eq_of_getLsbD_eq
  intro bit inWord
  have index : bit / 8 < width := by omega
  have inByte : bit % 8 < 8 := by omega
  have position : 8 * (bit / 8) + bit % 8 = bit := Nat.div_add_mod bit 8
  have bytes := congrArg (fun byte : UInt8 => byte.toBitVec.getLsbD (bit % 8))
    (same (bit / 8) index)
  simpa only [byte_of_get_bit _ _ _ inByte, position] using bytes

@[simp] theorem byte_of_read_word (width : Nat) (memory : Memory) (address index : Nat)
    (inWord : index < width) :
    byteOf (readWord width memory address) index = memory (address + index) := by
  apply byte_ext
  intro bit inByte
  rw [byte_of_get_bit _ _ _ inByte, read_word_get_bit _ _ _ _ (by omega)]
  have quotient : (8 * index + bit) / 8 = index := by omega
  have remainder : (8 * index + bit) % 8 = bit := by omega
  rw [quotient, remainder]

theorem read_word_congr (width : Nat) (left right : Memory) (address other : Nat)
    (same : ∀ index, index < width → left (address + index) = right (other + index)) :
    readWord width left address = readWord width right other := by
  apply word_ext
  intro index inWord
  rw [byte_of_read_word _ _ _ _ inWord, byte_of_read_word _ _ _ _ inWord, same index inWord]

theorem write_word_inside (width : Nat) (memory : Memory) (address : Nat)
    (word : BitVec (8 * width)) (index : Nat) (inWord : index < width) :
    writeWord width memory address word (address + index) = byteOf word index := by
  simp [writeWord, inWord]

theorem write_word_outside (width : Nat) (memory : Memory) (address : Nat)
    (word : BitVec (8 * width)) (position : Nat)
    (outside : position < address ∨ address + width ≤ position) :
    writeWord width memory address word position = memory position := by
  have notInside : ¬(address ≤ position ∧ position < address + width) := by omega
  simp only [writeWord, if_neg notInside]

theorem read_word_of_bytes (width : Nat) (memory : Memory) (address : Nat)
    (word : BitVec (8 * width))
    (bytes : ∀ index, index < width → memory (address + index) = byteOf word index) :
    readWord width memory address = word := by
  apply word_ext
  intro index inWord
  rw [byte_of_read_word _ _ _ _ inWord, bytes index inWord]

@[simp] theorem read_write_word (width : Nat) (memory : Memory) (address : Nat)
    (word : BitVec (8 * width)) :
    readWord width (writeWord width memory address word) address = word :=
  read_word_of_bytes width _ _ word fun index inWord =>
    write_word_inside width memory address word index inWord

theorem read_word_write_outside (width other : Nat) (memory : Memory)
    (address written : Nat) (word : BitVec (8 * other))
    (apart : address + width ≤ written ∨ written + other ≤ address) :
    readWord width (writeWord other memory written word) address = readWord width memory address := by
  apply read_word_congr
  intro index inWord
  exact write_word_outside other memory written word _ (by omega)

/-- The first `count` bytes of `source` at `address`, and `memory` elsewhere. -/
def copyBytes (memory : Memory) (address : Nat) (source : Memory) (count : Nat) : Memory :=
  fun position =>
    if address ≤ position ∧ position < address + count then source (position - address)
    else memory position

theorem copy_bytes_inside (memory : Memory) (address : Nat) (source : Memory) (count index : Nat)
    (inside : index < count) :
    copyBytes memory address source count (address + index) = source index := by
  simp [copyBytes, inside]

theorem copy_bytes_outside (memory : Memory) (address : Nat) (source : Memory) (count : Nat)
    (position : Nat) (outside : position < address ∨ address + count ≤ position) :
    copyBytes memory address source count position = memory position := by
  have notInside : ¬(address ≤ position ∧ position < address + count) := by omega
  simp only [copyBytes, if_neg notInside]

theorem byte_of_and {bits : Nat} (left right : BitVec bits) (index : Nat) :
    byteOf (left &&& right) index = byteOf left index &&& byteOf right index := by
  apply byte_ext
  intro bit inByte
  simp [byte_of_get_bit _ _ _ inByte]

theorem byte_of_not {width : Nat} (word : BitVec (8 * width)) (index : Nat)
    (inWord : index < width) : byteOf (~~~word) index = ~~~byteOf word index := by
  apply byte_ext
  intro bit inByte
  have position : 8 * index + bit < 8 * width := by omega
  rw [byte_of_get_bit _ _ _ inByte, BitVec.getLsbD_not, UInt8.toBitVec_not, BitVec.getLsbD_not,
    byte_of_get_bit _ _ _ inByte]
  simp only [position, inByte]

theorem byte_of_zero {bits : Nat} (index : Nat) : byteOf (0 : BitVec bits) index = 0 := by
  apply byte_ext
  intro bit inByte
  simp [byte_of_get_bit _ _ _ inByte]

theorem word_eq_zero_iff {width : Nat} (word : BitVec (8 * width)) :
    word = 0 ↔ ∀ index, index < width → byteOf word index = 0 := by
  constructor
  · intro zero index _
    rw [zero, byte_of_zero]
  · intro bytes
    apply word_ext
    intro index inWord
    rw [bytes index inWord, byte_of_zero]

/-- The bytes of a word in the order of their addresses. -/
def wordBytes (width : Nat) (word : BitVec (8 * width)) : List UInt8 :=
  (List.range width).map (byteOf word)

/-- A list of bytes from address 0 on, with zeros behind it. -/
def memoryOf (bytes : List UInt8) : Memory := fun position => bytes.getD position 0

@[simp] theorem word_bytes_length (width : Nat) (word : BitVec (8 * width)) :
    (wordBytes width word).length = width := by
  rw [wordBytes, List.length_map, List.length_range]

theorem memory_of_drop (bytes : List UInt8) (address index : Nat) :
    memoryOf bytes (address + index) = memoryOf (bytes.drop address) index := by
  rw [memoryOf, memoryOf, List.getD_eq_getElem?_getD, List.getD_eq_getElem?_getD,
    List.getElem?_drop]

theorem memory_of_word_bytes {width : Nat} (word : BitVec (8 * width)) (rest : List UInt8)
    {index : Nat} (inWord : index < width) :
    memoryOf (wordBytes width word ++ rest) index = byteOf word index := by
  have inBytes : index < (wordBytes width word).length := by rwa [word_bytes_length]
  rw [memoryOf, List.getD_append _ _ _ _ inBytes, List.getD_eq_getElem _ _ inBytes]
  simp [wordBytes]

theorem read_word_bytes {width address : Nat} {word : BitVec (8 * width)} {bytes rest : List UInt8}
    (here : bytes.drop address = wordBytes width word ++ rest) :
    readWord width (memoryOf bytes) address = word := by
  apply read_word_of_bytes
  intro index inWord
  rw [memory_of_drop, here, memory_of_word_bytes word rest inWord]

theorem drop_word_bytes {width address : Nat} {bytes : List UInt8}
    (inside : address + width ≤ bytes.length) :
    bytes.drop address =
      wordBytes width (readWord width (memoryOf bytes) address) ++ bytes.drop (address + width) := by
  rw [← List.drop_drop]
  apply (List.take_append_drop width (bytes.drop address)).symm.trans
  congr 1
  apply List.ext_getElem
  · rw [word_bytes_length, List.length_take, List.length_drop]
    omega
  · intro index inTake inWord
    rw [word_bytes_length] at inWord
    simp only [wordBytes, List.getElem_map, List.getElem_range, byte_of_read_word _ _ _ _ inWord,
      List.getElem_take, List.getElem_drop, memoryOf]
    exact (List.getD_eq_getElem _ _ (by omega)).symm

/-- Bit `index` of the memory, from the most significant bit of its first byte on. -/
def bitAt (memory : Memory) (index : Nat) : Bool :=
  (memory (index / 8)).toBitVec.getMsbD (index % 8)

theorem bit_at_update (memory : Memory) (address : Nat) (byte : UInt8) (index : Nat) :
    bitAt (Function.update memory address byte) index =
      if index / 8 = address then byte.toBitVec.getMsbD (index % 8) else bitAt memory index := by
  unfold bitAt
  rw [Function.update_apply]
  split_ifs <;> rfl

theorem shifted_bit (byte : UInt8) (shift index : Nat) (short : shift < 8) (inByte : index < 8) :
    (byte >>> UInt8.ofNat shift).toBitVec.getMsbD index =
      (decide (shift ≤ index) && byte.toBitVec.getMsbD (index - shift)) := by
  have amount : ((UInt8.ofNat shift).toBitVec % 8).toNat = shift := by
    have small : shift % 2 ^ 8 = shift := Nat.mod_eq_of_lt (Nat.lt_trans short (by decide))
    rw [BitVec.toNat_umod, UInt8.toNat_toBitVec, UInt8.toNat_ofNat', small]
    exact Nat.mod_eq_of_lt short
  rw [UInt8.toBitVec_shiftRight, BitVec.ushiftRight_eq', amount, BitVec.getMsbD_ushiftRight]
  simp only [inByte, decide_true, Bool.true_and, ← decide_not, Nat.not_lt]

end LittleEndian
