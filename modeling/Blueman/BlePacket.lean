import Blueman.Library.LittleEndian
import Mathlib.Tactic.SplitIfs

/-!
# The packet that travels between the hook and the fuzzer

`BLE_pkt` is a packed struct: six little-endian 32-bit fields followed by 255
bytes. The mutators address it by raw byte offsets, so besides the record there
is its byte image, and every field of the record is recovered from the image.
`copy_ble_pkt`, which merges a recorded packet into a live one, is here too.
-/

namespace Blueman.BlePacket

open LittleEndian

set_option autoImplicit false

abbrev blePktMaxLen : Nat := 255

@[ext] structure BlePkt where
  sid : UInt32
  deviceId : UInt32
  mutated : UInt32
  address : UInt32
  len : UInt32
  maxPayloadLen : UInt32
  pkt : Vector UInt8 blePktMaxLen
deriving DecidableEq

def BlePkt.lengthByte (packet : BlePkt) : UInt8 := packet.pkt.getD 1 0

abbrev deviceIdOffset : Nat := 4
abbrev mutatedOffset : Nat := 8
abbrev addressOffset : Nat := 12
abbrev lenOffset : Nat := 16
abbrev maxPayloadLenOffset : Nat := 20
abbrev pktOffset : Nat := 24
abbrev blePktSize : Nat := pktOffset + blePktMaxLen

def BlePkt.image (packet : BlePkt) (position : Nat) : UInt8 :=
  if position < deviceIdOffset then byteOf packet.sid.toBitVec position
  else if position < mutatedOffset then
    byteOf packet.deviceId.toBitVec (position - deviceIdOffset)
  else if position < addressOffset then
    byteOf packet.mutated.toBitVec (position - mutatedOffset)
  else if position < lenOffset then
    byteOf packet.address.toBitVec (position - addressOffset)
  else if position < maxPayloadLenOffset then
    byteOf packet.len.toBitVec (position - lenOffset)
  else if position < pktOffset then
    byteOf packet.maxPayloadLen.toBitVec (position - maxPayloadLenOffset)
  else packet.pkt.getD (position - pktOffset) 0

def fieldAt (memory : Memory) (offset : Nat) : UInt32 :=
  UInt32.ofBitVec (readWord 4 memory offset)

/-- The record whose image lies at `base`. -/
def BlePkt.ofMemory (memory : Memory) (base : Nat) : BlePkt where
  sid := fieldAt memory base
  deviceId := fieldAt memory (base + deviceIdOffset)
  mutated := fieldAt memory (base + mutatedOffset)
  address := fieldAt memory (base + addressOffset)
  len := fieldAt memory (base + lenOffset)
  maxPayloadLen := fieldAt memory (base + maxPayloadLenOffset)
  pkt := Vector.ofFn fun index => memory (base + pktOffset + index.val)

theorem field_at_congr {left right : Memory} {offset other : Nat}
    (same : ∀ index, index < 4 → left (offset + index) = right (other + index)) :
    fieldAt left offset = fieldAt right other :=
  congrArg UInt32.ofBitVec (read_word_congr 4 left right offset other same)

theorem byte_of_field_at (memory : Memory) (offset index : Nat) (inWord : index < 4) :
    byteOf (fieldAt memory offset).toBitVec index = memory (offset + index) :=
  byte_of_read_word 4 memory offset index inWord

theorem field_at_of_bytes {memory : Memory} {offset : Nat} {field : UInt32}
    (bytes : ∀ index, index < 4 → memory (offset + index) = byteOf field.toBitVec index) :
    fieldAt memory offset = field :=
  congrArg UInt32.ofBitVec (read_word_of_bytes 4 memory offset field.toBitVec bytes)

theorem pkt_get_d (pkt : Vector UInt8 blePktMaxLen) (index : Nat) (inside : index < blePktMaxLen) :
    pkt.getD index 0 = pkt[index] := by
  simp [Vector.getD, inside]

theorem of_memory_pkt_get (memory : Memory) (base index : Nat) (inside : index < blePktMaxLen) :
    (BlePkt.ofMemory memory base).pkt[index] = memory (base + pktOffset + index) :=
  Vector.getElem_ofFn inside

theorem length_byte (packet : BlePkt) : packet.lengthByte = packet.pkt[1] :=
  pkt_get_d packet.pkt 1 (by decide)

theorem image_pkt (packet : BlePkt) (index : Nat) (inside : index < blePktMaxLen) :
    packet.image (pktOffset + index) = packet.pkt[index] := by
  have bound : index < 255 := inside
  simp only [BlePkt.image, deviceIdOffset, mutatedOffset, addressOffset, lenOffset,
    maxPayloadLenOffset, pktOffset]
  repeat rw [if_neg (by omega)]
  rw [Nat.add_sub_cancel_left, pkt_get_d packet.pkt index inside]

theorem of_memory_image (packet : BlePkt) (memory : Memory) (base : Nat)
    (copied : ∀ position, position < blePktSize →
      memory (base + position) = packet.image position) :
    BlePkt.ofMemory memory base = packet := by
  have byte (offset index : Nat) (inside : offset + index < blePktSize) :
      memory (base + offset + index) = packet.image (offset + index) := by
    rw [Nat.add_assoc]
    exact copied (offset + index) inside
  have pktBytes : (Vector.ofFn fun index : Fin blePktMaxLen =>
      memory (base + pktOffset + index.val)) = packet.pkt := by
    ext index inside
    rw [Vector.getElem_ofFn, byte pktOffset index (by simp only [blePktSize]; omega), image_pkt packet index inside]
  have field (offset : Nat) (value : UInt32) (inside : offset + 4 ≤ blePktSize)
      (image : ∀ index, index < 4 → packet.image (offset + index) = byteOf value.toBitVec index) :
      fieldAt memory (base + offset) = value := by
    apply field_at_of_bytes
    intro index inWord
    rw [byte offset index (by omega), image index inWord]
  cases packet with
  | mk sid deviceId mutated address len maxPayloadLen pkt =>
    simp only [BlePkt.ofMemory, BlePkt.mk.injEq]
    refine ⟨?_, ?_, ?_, ?_, ?_, ?_, pktBytes⟩
    · apply field 0 sid (by decide)
      intro index inWord
      simp [BlePkt.image, deviceIdOffset, inWord]
    all_goals
      apply field _ _ (by decide)
      intro index inWord
      simp only [BlePkt.image, deviceIdOffset, mutatedOffset, addressOffset, lenOffset,
        maxPayloadLenOffset, pktOffset]
      repeat rw [if_neg (by omega)]
      rw [if_pos (by omega), Nat.add_sub_cancel_left]

/-- `memcpy` between two `pkt` arrays. Bytes past the end of the arrays belong
to no packet, so a count above 255 copies whole arrays here; that the count can
exceed the array is a statement about the count itself. -/
def memcpyPkt (dst src : Vector UInt8 blePktMaxLen) (count : Nat) : Vector UInt8 blePktMaxLen :=
  Vector.ofFn fun index => if index.val < count then src[index] else dst[index]

def copyBlePktLen (dst src : BlePkt) : UInt32 :=
  if src.len > dst.maxPayloadLen + 5 then dst.maxPayloadLen + 5 else src.len

/-- The result is the return value and the new `*dst`. -/
def copyBlePkt (dst src : BlePkt) : Nat × BlePkt :=
  if src.mutated = 1 then
    (1, { dst with
      len := copyBlePktLen dst src
      mutated := 1
      pkt := memcpyPkt dst.pkt src.pkt (copyBlePktLen dst src).toNat })
  else (0, dst)

theorem memcpy_pkt_get (dst src : Vector UInt8 blePktMaxLen) (count index : Nat)
    (inside : index < blePktMaxLen) :
    (memcpyPkt dst src count)[index] = if index < count then src[index] else dst[index] := by
  simp [memcpyPkt]

theorem copy_ble_pkt_unmutated (dst src : BlePkt) (unmutated : src.mutated ≠ 1) :
    copyBlePkt dst src = (0, dst) := if_neg unmutated

theorem copy_ble_pkt_device_id (dst src : BlePkt) :
    (copyBlePkt dst src).2.deviceId = dst.deviceId := by
  unfold copyBlePkt
  split_ifs <;> rfl

theorem copy_ble_pkt_mutated (dst src : BlePkt) :
    (copyBlePkt dst src).2.mutated = dst.mutated ∨ (copyBlePkt dst src).2.mutated = 1 := by
  unfold copyBlePkt
  split_ifs
  · exact .inr rfl
  · exact .inl rfl

end Blueman.BlePacket
