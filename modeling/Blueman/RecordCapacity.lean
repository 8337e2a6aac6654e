import Blueman.PacketRecord
import Mathlib.Logic.Function.Basic

/-!
# The capacity of a packet record

The record as it lies in its buffer: two counters and the slots behind them. A
packet is stored into the slot that `count` names, and the slots stored into are
recorded, so that a statement about the stores is one about the record. What the
slots hold up to `count` is the list that `PacketRecord` keeps. The buffer has
room for `n` packets and takes one less.
-/

namespace Blueman.RecordCapacity

open LittleEndian BlePacket PacketRecord

set_option autoImplicit false

structure SlotRecord where
  count : Nat
  maxCount : Nat
  pktsBuf : Nat → BlePkt
  /-- The slots stored into since the record was made or emptied. -/
  stores : List Nat

/-- `sizeof(pkt_record) + n * sizeof(BLE_pkt)`, a `size_t`. -/
def bufSize (n : Nat) : Nat := (pktRecordSize + blePktSize * n) % 2 ^ 64

def blankPkt : BlePkt := BlePkt.ofMemory (fun _ => 0) 0

/-- The mapping is anonymous: its slots are zero. -/
def createPktSeqBuf (n : Nat) : SlotRecord := ⟨0, n, fun _ => blankPkt, []⟩

def initPktSeqBuf (record : SlotRecord) : SlotRecord := { record with count := 0, stores := [] }

def addPktToSeqBuf (record : SlotRecord) (pkt : BlePkt) : Int × SlotRecord :=
  if record.maxCount > record.count + 1 then
    (0, { record with
      count := record.count + 1
      pktsBuf := Function.update record.pktsBuf record.count pkt
      stores := record.stores ++ [record.count] })
  else (-1, record)

def addPackets (record : SlotRecord) (calls : List BlePkt) : SlotRecord :=
  calls.foldl (fun record pkt => (addPktToSeqBuf record pkt).2) record

/-- Made with capacity `n`, or used before and reset. -/
inductive Emptied (n : Nat) : SlotRecord → Prop
  | created : Emptied n (createPktSeqBuf n)
  | reset (used : SlotRecord) (capacity : used.maxCount = n) : Emptied n (initPktSeqBuf used)

/-- What a bounded append-only list does with the calls, from a record of capacity `n`. -/
structure BoundedAppend (n : Nat) (start : SlotRecord) (calls : List BlePkt) : Prop where
  count : (addPackets start calls).count = min calls.length n
  held : ∀ index, index < min calls.length n →
    calls[index]? = some ((addPackets start calls).pktsBuf index)
  returns : ∀ before pkt after, calls = before ++ pkt :: after →
    ((addPktToSeqBuf (addPackets start before) pkt).1 = 0 ↔ (addPackets start before).count < n)
  refused : ∀ before pkt after, calls = before ++ pkt :: after →
    (addPktToSeqBuf (addPackets start before) pkt).1 ≠ 0 →
      (addPktToSeqBuf (addPackets start before) pkt).2 = addPackets start before
  inside : ∀ slot ∈ (addPackets start calls).stores,
    slot < n ∧ packetOffset slot + blePktSize ≤ bufSize n

structure Represents (record : SlotRecord) (pktRec : PktRecord) : Prop where
  maxCount : record.maxCount = pktRec.maxCount
  count : record.count = pktRec.count
  packets : ∀ index, index < pktRec.count →
    pktRec.packets[index]? = some (record.pktsBuf index)
  stores : record.stores = List.range pktRec.count

theorem emptied_represents {n : Nat} {start : SlotRecord} (emptied : Emptied n start) :
    Represents start (PacketRecord.createPktSeqBuf n) := by
  cases emptied with
  | created => exact ⟨rfl, rfl, fun _ below => absurd below (Nat.not_lt_zero _), rfl⟩
  | reset used capacity =>
      exact ⟨capacity, rfl, fun _ below => absurd below (Nat.not_lt_zero _), rfl⟩

theorem add_pkt_represents {record : SlotRecord} {pktRec : PktRecord}
    (represents : Represents record pktRec) (pkt : BlePkt) :
    (addPktToSeqBuf record pkt).1 = (PacketRecord.addPktToSeqBuf pktRec pkt).1 ∧
      Represents (addPktToSeqBuf record pkt).2 (PacketRecord.addPktToSeqBuf pktRec pkt).2 := by
  have sameTest : record.maxCount > record.count + 1 ↔ pktRec.maxCount > pktRec.count + 1 := by
    rw [represents.maxCount, represents.count]
  by_cases room : pktRec.maxCount > pktRec.count + 1
  · have grown : (pktRec.packets ++ [pkt]).length = pktRec.count + 1 := List.length_append
    rw [addPktToSeqBuf, if_pos (sameTest.mpr room), PacketRecord.addPktToSeqBuf, dif_pos room]
    refine ⟨rfl, represents.maxCount, ?_, ?_, ?_⟩
    · change record.count + 1 = (pktRec.packets ++ [pkt]).length
      rw [grown, represents.count]
    · intro index below
      change (pktRec.packets ++ [pkt])[index]? =
        some (Function.update record.pktsBuf record.count pkt index)
      replace below : index < pktRec.count + 1 := grown ▸ below
      by_cases last : index = pktRec.count
      · rw [last, represents.count, Function.update_self]
        exact List.getElem?_concat_length
      · have earlier : index < pktRec.count := by omega
        rw [Function.update_of_ne (by rwa [represents.count]), List.getElem?_append_left earlier]
        exact represents.packets index earlier
    · change record.stores ++ [record.count] = List.range (pktRec.packets ++ [pkt]).length
      rw [grown, List.range_succ, represents.stores, represents.count]
  · rw [addPktToSeqBuf, if_neg (mt sameTest.mp room), PacketRecord.addPktToSeqBuf, dif_neg room]
    exact ⟨rfl, represents⟩

/-- The last slot stays free: of the packets offered all but those from the
capacity less one on are kept. -/
theorem add_packets_represents {n : Nat} {start : SlotRecord} (emptied : Emptied n start)
    (calls : List BlePkt) : ∃ pktRec : PktRecord, Represents (addPackets start calls) pktRec ∧
      pktRec.maxCount = n ∧ pktRec.packets = calls.take (n - 1) := by
  induction calls using List.reverseRecOn with
  | nil => exact ⟨PacketRecord.createPktSeqBuf n, emptied_represents emptied, rfl, List.take_nil.symm⟩
  | append_singleton calls pkt induction =>
      obtain ⟨pktRec, represents, capacity, packets⟩ := induction
      have step := (add_pkt_represents represents pkt).2
      have next : addPackets start (calls ++ [pkt]) =
          (addPktToSeqBuf (addPackets start calls) pkt).2 := by
        rw [addPackets, List.foldl_append]
        rfl
      have held : pktRec.count = min (n - 1) calls.length := by
        rw [PktRecord.count, packets, List.length_take]
      refine ⟨(PacketRecord.addPktToSeqBuf pktRec pkt).2, next ▸ step, ?_, ?_⟩
      · rw [add_pkt_max_count, capacity]
      · by_cases room : pktRec.count + 1 < pktRec.maxCount
        · rw [(add_pkt_packets pktRec pkt room).2, packets, List.take_of_length_le (by omega),
            List.take_of_length_le]
          rw [List.length_append, List.length_singleton]
          omega
        · rw [PacketRecord.addPktToSeqBuf, dif_neg room, packets,
            List.take_append_of_le_length (by omega)]

theorem add_pkt_refused {record : SlotRecord} {pkt : BlePkt}
    (refused : (addPktToSeqBuf record pkt).1 ≠ 0) : (addPktToSeqBuf record pkt).2 = record := by
  unfold addPktToSeqBuf at refused ⊢
  split_ifs at refused ⊢ with room
  · exact absurd rfl refused
  · rfl

section

variable {n : Nat} {start : SlotRecord}

theorem add_packets_counters (emptied : Emptied n start) (calls : List BlePkt) :
    (addPackets start calls).maxCount = n ∧
      (addPackets start calls).count = min (n - 1) calls.length ∧
      (addPackets start calls).stores = List.range (min (n - 1) calls.length) := by
  obtain ⟨pktRec, represents, capacity, packets⟩ := add_packets_represents emptied calls
  have held : pktRec.count = min (n - 1) calls.length := by
    rw [PktRecord.count, packets, List.length_take]
  refine ⟨represents.maxCount.trans capacity, represents.count.trans held, ?_⟩
  rw [represents.stores, held]

theorem add_packets_slots (emptied : Emptied n start) (calls : List BlePkt) {index : Nat}
    (below : index < min (n - 1) calls.length) :
    calls[index]? = some ((addPackets start calls).pktsBuf index) := by
  obtain ⟨pktRec, represents, capacity, packets⟩ := add_packets_represents emptied calls
  have inRecord : index < pktRec.count := by
    rwa [PktRecord.count, packets, List.length_take]
  rw [← represents.packets index inRecord, packets, List.getElem?_take_of_lt (by omega)]

theorem packet_offset_succ (index : Nat) : packetOffset (index + 1) = packetOffset index + blePktSize := by
  unfold packetOffset
  rw [Nat.mul_succ, Nat.add_assoc]

theorem stores_inside_iff (emptied : Emptied n start) {calls : List BlePkt}
    (short : calls.length < n) :
    (∀ slot ∈ (addPackets start calls).stores,
        slot < n ∧ packetOffset slot + blePktSize ≤ bufSize n) ↔
      calls = [] ∨ packetOffset calls.length ≤ bufSize n := by
  have stores : (addPackets start calls).stores = List.range calls.length := by
    rw [(add_packets_counters emptied calls).2.2, Nat.min_eq_right (by omega)]
  rw [stores]
  constructor
  · intro inside
    by_cases none : calls = []
    · exact .inl none
    · have some : 0 < calls.length := List.length_pos_iff.mpr none
      have last := (inside (calls.length - 1) (List.mem_range.mpr (by omega))).2
      rw [← packet_offset_succ, Nat.sub_add_cancel some] at last
      exact .inr last
  · intro fits slot stored
    have below : slot < calls.length := List.mem_range.mp stored
    have offered : packetOffset calls.length ≤ bufSize n :=
      fits.resolve_left (List.ne_nil_of_length_pos (Nat.zero_lt_of_lt below))
    exact ⟨Nat.lt_trans below short, Nat.le_trans (packet_end_le below) offered⟩

/-- The record is the bounded list of its capacity until that many packets are
offered, as long as those offered end within the buffer. -/
theorem bounded_append_iff (positive : 1 ≤ n) (emptied : Emptied n start) (calls : List BlePkt) :
    BoundedAppend n start calls ↔
      calls.length < n ∧ (calls = [] ∨ packetOffset calls.length ≤ bufSize n) := by
  obtain ⟨-, count, -⟩ := add_packets_counters emptied calls
  constructor
  · intro bounded
    have short : calls.length < n := by
      have same := bounded.count
      omega
    exact ⟨short, (stores_inside_iff emptied short).mp bounded.inside⟩
  · rintro ⟨short, fits⟩
    have all : min (n - 1) calls.length = min calls.length n := by omega
    refine ⟨count.trans all, ?_, ?_, fun _ _ _ _ => add_pkt_refused, ?_⟩
    · intro index below
      exact add_packets_slots emptied calls (all ▸ below)
    · rintro before pkt after rfl
      obtain ⟨maxCount, earlier, -⟩ := add_packets_counters emptied before
      rw [List.length_append, List.length_cons] at short
      have room : (addPackets start before).maxCount > (addPackets start before).count + 1 := by
        omega
      rw [addPktToSeqBuf, if_pos room]
      simp only [true_iff]
      omega
    · exact (stores_inside_iff emptied short).mpr fits

def threePkts : List BlePkt :=
  [{ blankPkt with deviceId := 1, len := 7 }, blankPkt, { blankPkt with mutated := 1, len := 12 }]

/-- A record for four packets takes all three, in order. -/
theorem three_packets_kept : BoundedAppend 4 (createPktSeqBuf 4) threePkts :=
  (bounded_append_iff (by decide) .created threePkts).mpr ⟨by decide, .inr (by decide)⟩

/-- A record for one packet refuses the first one. -/
theorem last_slot_unused : ¬BoundedAppend 1 (createPktSeqBuf 1) [blankPkt] := by
  intro bounded
  exact absurd bounded.count (by decide)

end

end Blueman.RecordCapacity
