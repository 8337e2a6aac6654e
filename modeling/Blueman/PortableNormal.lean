import Blueman.PortableSeed

/-!
# Portable seeds saved again

A file that the reader takes need not be one that `save_seq_buf_to_file1` writes: the
upper halves of its two wide words are cut off when it is read. Saving what was read
gives the normal form of the file, which is read as the same packets and saved as itself.
-/

namespace Blueman.PortableNormal

open LittleEndian BlePacket PacketRecord PortableSeed

set_option autoImplicit false

def recordRead (reader : Reader) : PktRecord where
  maxCount := reader.count
  packets := (List.range reader.count).map reader.pktsBuf
  fits := by rw [List.length_map, List.length_range]

def normal (entry : SeedEntry) : SeedEntry where
  address := entry.address
  maxPayloadLen := (UInt64.ofBitVec entry.maxPayloadLen).toUInt32.toUInt64.toBitVec
  payloadLen := (packetLen entry.payloadLen - 2 - 3).toUInt64.toBitVec
  bytes := entry.bytes
  deviceId := entry.deviceId
  sized := by rw [packet_len_written, entry.sized]
  short := entry.short

theorem normal_length (entry : SeedEntry) :
    (normal entry).encode.length = entry.encode.length := by
  rw [encode_length, encode_length]
  rfl

theorem normal_normal (entry : SeedEntry) : normal (normal entry) = normal entry := by
  have length : packetLen (normal entry).payloadLen = packetLen entry.payloadLen :=
    packet_len_written _
  have limit : (UInt64.ofBitVec (normal entry).maxPayloadLen).toUInt32 =
      (UInt64.ofBitVec entry.maxPayloadLen).toUInt32 := UInt32.toUInt32_toUInt64 _
  simp only [normal] at length limit ⊢
  simp only [length, limit]

theorem fill_take (pkt : Vector UInt8 blePktMaxLen) {bytes : List UInt8}
    (short : bytes.length ≤ blePktMaxLen) : (fill pkt bytes).toList.take bytes.length = bytes := by
  apply List.ext_getElem
  · rw [List.length_take, Vector.length_toList]
    exact Nat.min_eq_left short
  · intro index _ inside
    rw [List.getElem_take, Vector.getElem_toList]
    simp only [fill, Vector.getElem_ofFn, List.getD_eq_getElem _ _ inside]

theorem stored_bytes (entry : SeedEntry) (old : BlePkt) :
    packetBytes (entry.store old) = (normal entry).encode := by
  have bytes : (fill old.pkt entry.bytes).toList.take (packetLen entry.payloadLen).toNat =
      entry.bytes := by
    rw [← entry.sized]
    exact fill_take old.pkt entry.short
  simp only [packetBytes, SeedEntry.store, SeedEntry.encode, normal, bytes]

theorem normal_same_packet (entry : SeedEntry) (old other : BlePkt) :
    SamePacket ((normal entry).store other) (entry.store old) where
  address := rfl
  maxPayloadLen := UInt32.toUInt32_toUInt64 _
  len := packet_len_written _
  bytes index inside below := by
    have inBytes : index < entry.bytes.length := by
      rw [entry.sized]
      exact below
    simp only [SeedEntry.store, normal, fill, Vector.getElem_ofFn,
      List.getD_eq_getElem _ _ inBytes]
  deviceId := rfl

section

variable {capacity : Nat} {pktsBuf : Nat → BlePkt} {final : Reader} {entries : List SeedEntry}

theorem resaved_entries (stored : Stored capacity ⟨0, 0, pktsBuf⟩ final entries) :
    saveSeqBufToFile1 (recordRead final) = (entries.map normal).flatMap SeedEntry.encode := by
  have count : final.count = entries.length := by
    rw [stored.count, Nat.zero_add]
  have bytes : (recordRead final).packets.map packetBytes =
      (entries.map normal).map SeedEntry.encode := by
    apply List.ext_getElem
    · simp [recordRead, count]
    · intro index _ inside
      have inEntries : index < entries.length := by simpa using inside
      have slot := stored.stored index inEntries
      rw [Nat.zero_add] at slot
      simp only [recordRead, List.getElem_map, List.getElem_range, slot]
      exact stored_bytes entries[index] _
  rw [saveSeqBufToFile1, List.flatMap_def, List.flatMap_def, bytes]

theorem normal_entries_length (entries : List SeedEntry) :
    ((entries.map normal).flatMap SeedEntry.encode).length =
      (entries.flatMap SeedEntry.encode).length := by
  induction entries with
  | nil => rfl
  | cons entry rest induction =>
      rw [List.map_cons, List.flatMap_cons, List.flatMap_cons, List.length_append,
        List.length_append, normal_length, induction]

theorem entries_length_unique {entries others : List SeedEntry}
    (same : entries.flatMap SeedEntry.encode = others.flatMap SeedEntry.encode) :
    entries.length = others.length := by
  let blank : Nat → BlePkt := fun _ => BlePkt.ofMemory (fun _ => 0) 0
  obtain ⟨first, left, -, stored⟩ := copy_entries entries blank
    (Nat.le_max_left entries.length others.length)
  obtain ⟨second, right, -, again⟩ := copy_entries others blank
    (Nat.le_max_right entries.length others.length)
  rw [same, right] at left
  cases left
  have count := stored.count
  rw [again.count] at count
  omega

theorem read_stored {mem : List UInt8} {reader : Reader} {malformed : Bool}
    (read : copyFileToSeqBuf1 mem capacity pktsBuf = some (.ok (reader, malformed))) :
    ∃ entries, mem = entries.flatMap SeedEntry.encode ∧ entries.length ≤ capacity ∧
      Stored capacity ⟨0, 0, pktsBuf⟩ reader entries := by
  obtain ⟨-, entries, here, fits⟩ := read_entries_ok read (Nat.zero_le capacity)
  have room : entries.length ≤ capacity := by rwa [Nat.zero_add] at fits
  have whole : mem = entries.flatMap SeedEntry.encode := here
  obtain ⟨final, run, -, stored⟩ := copy_entries entries pktsBuf room
  rw [whole, run] at read
  cases read
  exact ⟨entries, whole, room, stored⟩

theorem normal_entry_of (packet : BlePkt) (bounded : packet.len.toNat ≤ blePktMaxLen) :
    normal (entryOf packet bounded) = entryOf packet bounded := by
  have limit : (UInt64.ofBitVec packet.maxPayloadLen.toUInt64.toBitVec).toUInt32 =
      packet.maxPayloadLen := UInt32.toUInt32_toUInt64 _
  simp only [normal, entryOf, packet_len_written, limit]

theorem recorded_short (stored : Stored capacity ⟨0, 0, pktsBuf⟩ final entries) :
    ∀ packet ∈ (recordRead final).packets, packet.len.toNat ≤ blePktMaxLen := by
  intro packet member
  obtain ⟨slot, inside, same⟩ := List.mem_map.mp member
  have inEntries : slot < entries.length := by
    have count := stored.count
    have below := List.mem_range.mp inside
    simp only at count
    omega
  have read := stored.stored slot inEntries
  rw [Nat.zero_add] at read
  rw [← same, read]
  exact (entries[slot].sized.symm.trans_le entries[slot].short)

end

/-- The file saved for what has been read of another one. -/
structure NormalForm (mem : List UInt8) (capacity : Nat) (reader : Reader) (saved : List UInt8) :
    Prop where
  length : saved.length = mem.length
  again : ∀ pktsBuf, ∃ again, copyFileToSeqBuf1 saved capacity pktsBuf = some (.ok (again, false)) ∧
    again.count = reader.count ∧
      (∀ slot, slot < reader.count → SamePacket (again.pktsBuf slot) (reader.pktsBuf slot)) ∧
        saveSeqBufToFile1 (recordRead again) = saved
  fixed : saved = mem ↔ ∃ pktRec : PktRecord,
    (∀ packet ∈ pktRec.packets, packet.len.toNat ≤ blePktMaxLen) ∧ mem = saveSeqBufToFile1 pktRec

/-- Whatever file the reader takes: saving what was read gives a file of the same length,
which is read as the same packets and saved as itself, and it is the file that was read
exactly if that one is the file of some record. -/
theorem resaved_normal_form (mem : List UInt8) (capacity : Nat) (pktsBuf : Nat → BlePkt)
    (reader : Reader) (malformed : Bool)
    (read : copyFileToSeqBuf1 mem capacity pktsBuf = some (.ok (reader, malformed))) :
    NormalForm mem capacity reader (saveSeqBufToFile1 (recordRead reader)) := by
  obtain ⟨entries, whole, room, stored⟩ := read_stored read
  have saved := resaved_entries stored
  have count : reader.count = entries.length := by
    rw [stored.count, Nat.zero_add]
  constructor
  · rw [saved, whole]
    exact normal_entries_length entries
  · intro other
    have space : (entries.map normal).length ≤ capacity := by rwa [List.length_map]
    obtain ⟨again, run, -, restored⟩ := copy_entries (entries.map normal) other space
    have recount : again.count = entries.length := by
      rw [restored.count, Nat.zero_add, List.length_map]
    refine ⟨again, by rw [saved, run], recount.trans count.symm, ?_, ?_⟩
    · intro slot inside
      have inEntries : slot < entries.length := by omega
      have before := stored.stored slot inEntries
      have after := restored.stored slot (by rwa [List.length_map])
      rw [Nat.zero_add] at before after
      rw [before, after, List.getElem_map]
      exact normal_same_packet _ _ _
    · have twice : (entries.map normal).map normal = entries.map normal := by
        rw [List.map_map]
        exact List.map_congr_left fun entry _ => normal_normal entry
      rw [resaved_entries restored, twice, saved]
  · constructor
    · intro same
      exact ⟨recordRead reader, recorded_short stored, same.symm⟩
    · intro ⟨pktRec, bounded, written⟩
      have encoded : mem = (pktRec.packets.pmap entryOf bounded).flatMap SeedEntry.encode :=
        written.trans (save_encodes pktRec.packets bounded)
      have fits : (pktRec.packets.pmap entryOf bounded).length ≤ capacity := by
        rw [← entries_length_unique (whole.symm.trans encoded)]
        exact room
      obtain ⟨final, run, -, again⟩ := copy_entries _ pktsBuf fits
      rw [encoded, run] at read
      cases read
      have plain : (pktRec.packets.pmap entryOf bounded).map normal =
          pktRec.packets.pmap entryOf bounded := by
        rw [List.map_pmap]
        exact List.pmap_congr_left _ fun packet _ short _ => normal_entry_of packet short
      rw [resaved_entries again, plain, encoded]

def wideEntry : SeedEntry where
  address := 0x8E89BED6
  maxPayloadLen := 0x10000001B
  payloadLen := -5
  bytes := []
  deviceId := 1
  sized := rfl
  short := Nat.zero_le _

theorem wide_entry_normal_form : ∃ reader,
    NormalForm wideEntry.encode 1 reader (saveSeqBufToFile1 (recordRead reader)) := by
  have blank : Nat → BlePkt := fun _ => BlePkt.ofMemory (fun _ => 0) 0
  obtain ⟨reader, read, -, -⟩ := copy_entries [wideEntry] blank (Nat.le_refl 1)
  rw [List.flatMap_singleton] at read
  exact ⟨reader, resaved_normal_form wideEntry.encode 1 blank reader false read⟩

end Blueman.PortableNormal
