import Blueman.BlePacket
import Mathlib.Data.List.Range

/-!
# Packet records and the files they are saved in

`pkt_record.c`: a bounded buffer of packets, written to a file as the bytes of
its struct and read back through a mapping of fixed size.
-/

namespace Blueman.PacketRecord

open LittleEndian BlePacket

set_option autoImplicit false

/-- `max_count` never falls below `count`. -/
structure PktRecord where
  maxCount : Nat
  packets : List BlePkt
  fits : packets.length ≤ maxCount

def PktRecord.count (pktRec : PktRecord) : Nat := pktRec.packets.length

def createPktSeqBuf (n : Nat) : PktRecord := ⟨n, [], Nat.zero_le n⟩

def initPktSeqBuf (pktRec : PktRecord) : PktRecord := ⟨pktRec.maxCount, [], Nat.zero_le _⟩

/-- The result is the return value and the new record; the last slot of the
buffer is never used. -/
def addPktToSeqBuf (pktRec : PktRecord) (pkt : BlePkt) : Int × PktRecord :=
  if room : pktRec.maxCount > pktRec.count + 1 then
    (0, ⟨pktRec.maxCount, pktRec.packets ++ [pkt], by
      rw [List.length_append]
      exact Nat.le_of_lt room⟩)
  else (-1, pktRec)

def getPktSeqTotalLen (pktRec : PktRecord) : UInt32 :=
  pktRec.packets.foldl (fun ret packet => ret + packet.len) 0

theorem add_pkt_packets (pktRec : PktRecord) (pkt : BlePkt)
    (room : pktRec.count + 1 < pktRec.maxCount) :
    (addPktToSeqBuf pktRec pkt).1 = 0 ∧
      (addPktToSeqBuf pktRec pkt).2.packets = pktRec.packets ++ [pkt] := by
  rw [addPktToSeqBuf, dif_pos room]
  exact ⟨rfl, rfl⟩

@[simp] theorem add_pkt_max_count (pktRec : PktRecord) (pkt : BlePkt) :
    (addPktToSeqBuf pktRec pkt).2.maxCount = pktRec.maxCount := by
  unfold addPktToSeqBuf
  split_ifs <;> rfl

theorem add_pkt_count_le (pktRec : PktRecord) (pkt : BlePkt) :
    (addPktToSeqBuf pktRec pkt).2.count ≤ pktRec.count + 1 := by
  unfold addPktToSeqBuf
  split_ifs
  · exact Nat.le_of_eq List.length_append
  · exact Nat.le_succ _

theorem add_pkt_count_ge (pktRec : PktRecord) (pkt : BlePkt) (space : 1 < pktRec.maxCount) :
    (addPktToSeqBuf pktRec pkt).2.count ≠ 0 ∧
      pktRec.count ≤ (addPktToSeqBuf pktRec pkt).2.count := by
  unfold addPktToSeqBuf
  split_ifs with room
  · have grown : (pktRec.packets ++ [pkt]).length = pktRec.count + 1 := List.length_append
    simp only [PktRecord.count, grown]
    omega
  · simp only
    omega

abbrev pktRecordSize : Nat := 16
abbrev maxCountOffset : Nat := 8

def packetOffset (index : Nat) : Nat := pktRecordSize + blePktSize * index

/-- The bytes of the struct: the two counters, then the packets. -/
def PktRecord.image (pktRec : PktRecord) (position : Nat) : UInt8 :=
  if position < maxCountOffset then byteOf (BitVec.ofNat 64 pktRec.count) position
  else if position < pktRecordSize then
    byteOf (BitVec.ofNat 64 pktRec.maxCount) (position - maxCountOffset)
  else
    match pktRec.packets[(position - pktRecordSize) / blePktSize]? with
    | some packet => packet.image ((position - pktRecordSize) % blePktSize)
    | none => 0

structure SeedFile where
  size : Nat
  bytes : Memory

def saveSeqBufToFile2 (pktRec : PktRecord) : SeedFile where
  size := pktRecordSize + blePktSize * pktRec.count
  bytes := pktRec.image

/-- A private mapping: the file's bytes, and zeros behind its end. -/
structure Mapping where
  length : Nat
  bytes : Memory

def mmapSeqBufFile (file : SeedFile) (maxPktCount : Nat) : Mapping where
  length := pktRecordSize + blePktSize * maxPktCount
  bytes position := if position < file.size then file.bytes position else 0

def Mapping.count (mapping : Mapping) : Nat := (readWord 8 mapping.bytes 0).toNat

def Mapping.packet (mapping : Mapping) (index : Nat) : BlePkt :=
  BlePkt.ofMemory mapping.bytes (packetOffset index)

/-- `pkts_buf[0]` to `pkts_buf[count - 1]` as the fuzzer reads them. -/
def Mapping.packets (mapping : Mapping) : List BlePkt :=
  (List.range mapping.count).map mapping.packet

theorem image_packet (pktRec : PktRecord) (index position : Nat) (packet : BlePkt)
    (found : pktRec.packets[index]? = some packet) (inside : position < blePktSize) :
    pktRec.image (packetOffset index + position) = packet.image position := by
  have size : 0 < blePktSize := by decide
  have behind : packetOffset index + position - pktRecordSize = position + blePktSize * index := by
    unfold packetOffset
    omega
  have quotient : (position + blePktSize * index) / blePktSize = index := by
    rw [Nat.add_mul_div_left _ _ size, Nat.div_eq_of_lt inside, Nat.zero_add]
  have offset : (position + blePktSize * index) % blePktSize = position := by
    rw [Nat.add_mul_mod_self_left, Nat.mod_eq_of_lt inside]
  have notCounter : ¬packetOffset index + position < pktRecordSize := by
    unfold packetOffset
    omega
  have notCount : ¬packetOffset index + position < maxCountOffset := by
    unfold packetOffset
    simp only [maxCountOffset, pktRecordSize]
    omega
  rw [PktRecord.image, if_neg notCount, if_neg notCounter, behind, quotient, found, offset]

theorem packet_end_le {index count : Nat} (below : index < count) :
    packetOffset index + blePktSize ≤ pktRecordSize + blePktSize * count := by
  have next : blePktSize * (index + 1) ≤ blePktSize * count := Nat.mul_le_mul_left _ below
  rw [Nat.mul_succ] at next
  unfold packetOffset
  omega

theorem mmap_saved (pktRec : PktRecord) (maxPktCount : Nat) (small : pktRec.count < 2 ^ 64) :
    (mmapSeqBufFile (saveSeqBufToFile2 pktRec) maxPktCount).count = pktRec.count ∧
      (mmapSeqBufFile (saveSeqBufToFile2 pktRec) maxPktCount).packets = pktRec.packets := by
  have bytes (position : Nat) (inside : position < pktRecordSize + blePktSize * pktRec.count) :
      (mmapSeqBufFile (saveSeqBufToFile2 pktRec) maxPktCount).bytes position =
        pktRec.image position := if_pos inside
  have count : (mmapSeqBufFile (saveSeqBufToFile2 pktRec) maxPktCount).count = pktRec.count := by
    have word : readWord 8 (mmapSeqBufFile (saveSeqBufToFile2 pktRec) maxPktCount).bytes 0 =
        BitVec.ofNat 64 pktRec.count := by
      apply read_word_of_bytes 8 _ 0 _
      intro index inWord
      rw [Nat.zero_add, bytes index (Nat.lt_add_right _ (Nat.lt_trans inWord (by decide)))]
      exact if_pos inWord
    rw [Mapping.count, word, BitVec.toNat_ofNat, Nat.mod_eq_of_lt small]
  refine ⟨count, ?_⟩
  rw [Mapping.packets, count]
  apply List.ext_getElem (by simp [PktRecord.count])
  intro index _ inside
  rw [List.getElem_map, List.getElem_range]
  have found : pktRec.packets[index]? = some pktRec.packets[index] :=
    List.getElem?_eq_getElem inside
  apply of_memory_image _ _ _
  intro position inPacket
  have packetEnd : packetOffset index + blePktSize ≤ pktRecordSize + blePktSize * pktRec.count :=
    packet_end_le inside
  rw [bytes _ (by omega)]
  exact image_packet pktRec index position _ found inPacket

/-- Every packet below the count lies in the file, and in the mapping as long as
the count is within what is mapped. -/
theorem saved_packet_inside (pktRec : PktRecord) (maxPktCount index : Nat)
    (bounded : pktRec.count ≤ maxPktCount) (below : index < pktRec.count) :
    packetOffset index + blePktSize ≤ (saveSeqBufToFile2 pktRec).size ∧
      packetOffset index + blePktSize ≤
        (mmapSeqBufFile (saveSeqBufToFile2 pktRec) maxPktCount).length :=
  ⟨packet_end_le below, packet_end_le (Nat.lt_of_lt_of_le below bounded)⟩

end Blueman.PacketRecord
