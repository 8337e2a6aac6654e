import Blueman.PacketRecord
import Mathlib.Logic.Function.Basic

/-!
# The portable seed format

A seed file as `save_seq_buf_to_file1` writes it: for each packet its address,
limit, payload length, bytes and device, one after the other. Lengths are widened
to 64 bits and cut back to 32 when they are read. `copy_file_to_seq_buf1` checks
nothing before it copies, so a read behind the end of the file and a store behind
a packet or the record are faults here, at which its run ends. The counters `i` and
`count` are `int`s that count the packets of a record in memory.
-/

namespace Blueman.PortableSeed

open LittleEndian BlePacket PacketRecord

set_option autoImplicit false

/-- What is written for a packet. A length above 255 would also write what lies
behind the array. -/
def packetBytes (packet : BlePkt) : List UInt8 :=
  wordBytes 4 packet.address.toBitVec ++ (wordBytes 8 packet.maxPayloadLen.toUInt64.toBitVec ++
    (wordBytes 8 (packet.len - 2 - 3).toUInt64.toBitVec ++
      (packet.pkt.toList.take packet.len.toNat ++ wordBytes 4 packet.deviceId.toBitVec)))

def saveSeqBufToFile1 (pktRec : PktRecord) : List UInt8 := pktRec.packets.flatMap packetBytes

/-- What the reader does not check. -/
inductive ReadFault
  | readPastEnd
  | packetOverrun
  | recordOverrun
deriving DecidableEq

def loadWord (mem : List UInt8) (width n : Nat) : Except ReadFault (BitVec (8 * width)) :=
  if n + width ≤ mem.length then .ok (readWord width (memoryOf mem) n) else .error .readPastEnd

def fill (pkt : Vector UInt8 blePktMaxLen) (bytes : List UInt8) : Vector UInt8 blePktMaxLen :=
  Vector.ofFn fun index => bytes.getD index.val (pkt.get index)

/-- `memcpy(pkt->pkt, &mem[n], pkt->len)` -/
def loadPkt (mem : List UInt8) (n len : Nat) (pkt : Vector UInt8 blePktMaxLen) :
    Except ReadFault (Vector UInt8 blePktMaxLen) :=
  if n + len > mem.length then .error .readPastEnd
  else if len > blePktMaxLen then .error .packetOverrun
  else .ok (fill pkt ((mem.drop n).take len))

/-- The length of a packet from what the file has for its payload: `tmp + 2 + 3` in
64 bits, cut to 32. -/
def packetLen (tmp : BitVec 64) : UInt32 := (UInt64.ofBitVec tmp + 2 + 3).toUInt32

/-- The variables of the loop, and the slots of the record. -/
structure Reader where
  n : Nat
  count : Nat
  pktsBuf : Nat → BlePkt

/-- A turn of the loop, for a record of so many slots. The result says whether the
check found the buffer malformed. -/
def readEntry (mem : List UInt8) (capacity : Nat) (reader : Reader) :
    Except ReadFault (Reader × Bool) := do
  let pkt := reader.pktsBuf reader.count
  let address ← loadWord mem 4 reader.n
  if reader.count ≥ capacity then throw .recordOverrun
  let maxPayloadLen ← loadWord mem 8 (reader.n + 4)
  let tmp ← loadWord mem 8 (reader.n + 4 + 8)
  let len := packetLen tmp
  let bytes ← loadPkt mem (reader.n + 4 + 8 + 8) len.toNat pkt.pkt
  let n := reader.n + 4 + 8 + 8 + len.toNat
  let pkt := { pkt with
    address := UInt32.ofBitVec address
    maxPayloadLen := (UInt64.ofBitVec maxPayloadLen).toUInt32
    len := len
    pkt := bytes }
  if n > mem.length then
    return (⟨n, reader.count, Function.update reader.pktsBuf reader.count pkt⟩, true)
  let deviceId ← loadWord mem 4 n
  let pkt := { pkt with deviceId := UInt32.ofBitVec deviceId }
  return (⟨n + 4, reader.count + 1, Function.update reader.pktsBuf reader.count pkt⟩, false)

/-- The loop, unless the turns allowed are too few. -/
def readEntries (mem : List UInt8) (capacity : Nat) :
    Nat → Reader → Option (Except ReadFault (Reader × Bool))
  | 0, _ => none
  | turns + 1, reader =>
      if mem.length > reader.n then
        match readEntry mem capacity reader with
        | .error fault => some (.error fault)
        | .ok (next, true) => some (.ok (next, true))
        | .ok (next, false) => readEntries mem capacity turns next
      else some (.ok (reader, false))

/-- The final `count` and the slots, the offset reached, and whether the buffer was
found malformed. The loop is allowed a turn for every byte, and the one that ends it. -/
def copyFileToSeqBuf1 (mem : List UInt8) (capacity : Nat) (pktsBuf : Nat → BlePkt) :
    Option (Except ReadFault (Reader × Bool)) :=
  readEntries mem capacity (mem.length + 1) ⟨0, 0, pktsBuf⟩

/-- A complete entry that fits a packet. -/
structure SeedEntry where
  address : BitVec 32
  maxPayloadLen : BitVec 64
  payloadLen : BitVec 64
  bytes : List UInt8
  deviceId : BitVec 32
  sized : bytes.length = (packetLen payloadLen).toNat
  short : bytes.length ≤ blePktMaxLen

def SeedEntry.encode (entry : SeedEntry) : List UInt8 :=
  wordBytes 4 entry.address ++ (wordBytes 8 entry.maxPayloadLen ++
    (wordBytes 8 entry.payloadLen ++ (entry.bytes ++ wordBytes 4 entry.deviceId)))

def SeedEntry.store (entry : SeedEntry) (pkt : BlePkt) : BlePkt :=
  { pkt with
    address := UInt32.ofBitVec entry.address
    maxPayloadLen := (UInt64.ofBitVec entry.maxPayloadLen).toUInt32
    len := packetLen entry.payloadLen
    pkt := fill pkt.pkt entry.bytes
    deviceId := UInt32.ofBitVec entry.deviceId }

theorem encode_length (entry : SeedEntry) : entry.encode.length = 24 + entry.bytes.length := by
  simp only [SeedEntry.encode, List.length_append, word_bytes_length]
  omega

section

variable {mem rest : List UInt8} {n : Nat}

theorem drop_inside {front : List UInt8} (here : mem.drop n = front ++ rest) (some : front ≠ []) :
    n + front.length ≤ mem.length ∧ mem.drop (n + front.length) = rest := by
  have total := congrArg List.length here
  have positive := List.length_pos_iff.mpr some
  rw [List.length_drop, List.length_append] at total
  refine ⟨by omega, ?_⟩
  rw [← List.drop_drop, here, List.drop_left]

theorem load_word_here {width : Nat} {word : BitVec (8 * width)} (positive : 0 < width)
    (here : mem.drop n = wordBytes width word ++ rest) :
    loadWord mem width n = .ok word ∧ mem.drop (n + width) = rest := by
  have some : wordBytes width word ≠ [] := by
    apply List.ne_nil_of_length_pos
    rwa [word_bytes_length]
  obtain ⟨inside, behind⟩ := drop_inside here some
  rw [word_bytes_length] at inside behind
  rw [loadWord, if_pos inside, read_word_bytes here]
  exact ⟨rfl, behind⟩

theorem read_entry_encode {capacity : Nat} {reader : Reader} (entry : SeedEntry)
    (room : reader.count < capacity) (here : mem.drop reader.n = entry.encode ++ rest) :
    readEntry mem capacity reader = .ok (⟨reader.n + entry.encode.length, reader.count + 1,
      Function.update reader.pktsBuf reader.count (entry.store (reader.pktsBuf reader.count))⟩,
      false) := by
  have size := encode_length entry
  simp only [SeedEntry.encode, List.append_assoc] at here
  obtain ⟨address, here⟩ := load_word_here (by decide) here
  obtain ⟨maxPayloadLen, here⟩ := load_word_here (by decide) here
  obtain ⟨tmp, here⟩ := load_word_here (by decide) here
  have behind : wordBytes 4 entry.deviceId ++ rest ≠ [] := by
    apply List.ne_nil_of_length_pos
    rw [List.length_append, word_bytes_length]
    omega
  have total := congrArg List.length here
  have tail := List.length_pos_iff.mpr behind
  rw [List.length_drop, List.length_append] at total
  have payload : loadPkt mem (reader.n + 4 + 8 + 8) (packetLen entry.payloadLen).toNat
      (reader.pktsBuf reader.count).pkt =
        .ok (fill (reader.pktsBuf reader.count).pkt entry.bytes) := by
    have inside : ¬reader.n + 4 + 8 + 8 + entry.bytes.length > mem.length := by omega
    rw [← entry.sized, loadPkt, if_neg inside, if_neg (Nat.not_lt.mpr entry.short), here,
      List.take_left]
  have next : mem.drop (reader.n + 4 + 8 + 8 + (packetLen entry.payloadLen).toNat) =
      wordBytes 4 entry.deviceId ++ rest := by
    rw [← entry.sized, ← List.drop_drop, here, List.drop_left]
  have taken : ¬reader.n + 4 + 8 + 8 + (packetLen entry.payloadLen).toNat > mem.length := by
    rw [← entry.sized]
    omega
  have deviceId := (load_word_here (by decide) next).1
  have reached : reader.n + 4 + 8 + 8 + (packetLen entry.payloadLen).toNat + 4 =
      reader.n + entry.encode.length := by
    rw [← entry.sized, size]
    omega
  simp only [readEntry, address, maxPayloadLen, tmp, payload, deviceId, bind, Except.bind,
    if_neg (Nat.not_le.mpr room), if_neg taken, pure, Except.pure, reached]
  rfl

theorem load_word_ok {width : Nat} {word : BitVec (8 * width)}
    (loaded : loadWord mem width n = .ok word) :
    mem.drop n = wordBytes width word ++ mem.drop (n + width) := by
  unfold loadWord at loaded
  split_ifs at loaded with inside
  cases loaded
  exact drop_word_bytes inside

theorem load_pkt_ok {len : Nat} {old pkt : Vector UInt8 blePktMaxLen}
    (loaded : loadPkt mem n len old = .ok pkt) : n + len ≤ mem.length ∧ len ≤ blePktMaxLen := by
  unfold loadPkt at loaded
  split_ifs at loaded with outside long
  exact ⟨Nat.not_lt.mp outside, Nat.not_lt.mp long⟩

theorem drop_split (mem : List UInt8) (n len : Nat) :
    mem.drop n = (mem.drop n).take len ++ mem.drop (n + len) := by
  rw [← List.drop_drop, List.take_append_drop]

theorem bind_ok {Value Other : Type} {first : Except ReadFault Value}
    {next : Value → Except ReadFault Other} {result : Other} (ok : first >>= next = .ok result) :
    ∃ value, first = .ok value ∧ next value = .ok result := by
  cases first with
  | error fault => cases ok
  | ok value => exact ⟨value, rfl, ok⟩

/-- A turn without a fault has read a complete entry into a slot of the record; its
check has found nothing. -/
theorem read_entry_ok {capacity : Nat} {reader next : Reader} {malformed : Bool}
    (ok : readEntry mem capacity reader = .ok (next, malformed)) :
    malformed = false ∧ reader.count < capacity ∧
      ∃ entry : SeedEntry, mem.drop reader.n = entry.encode ++ mem.drop next.n ∧
        next.count = reader.count + 1 := by
  obtain ⟨address, addressLoaded, ok⟩ := bind_ok ok
  by_cases room : reader.count ≥ capacity
  · rw [if_pos room] at ok
    cases ok
  rw [if_neg room] at ok
  obtain ⟨maxPayloadLen, limitLoaded, ok⟩ := bind_ok ok
  obtain ⟨tmp, lenLoaded, ok⟩ := bind_ok ok
  obtain ⟨pkt, pktLoaded, ok⟩ := bind_ok ok
  obtain ⟨inside, short⟩ := load_pkt_ok pktLoaded
  rw [if_neg (Nat.not_lt.mpr inside)] at ok
  obtain ⟨deviceId, deviceLoaded, ok⟩ := bind_ok ok
  cases ok
  have size : ((mem.drop (reader.n + 4 + 8 + 8)).take (packetLen tmp).toNat).length =
      (packetLen tmp).toNat := by
    rw [List.length_take, List.length_drop]
    omega
  have split := drop_split mem (reader.n + 4 + 8 + 8) (packetLen tmp).toNat
  generalize (mem.drop (reader.n + 4 + 8 + 8)).take (packetLen tmp).toNat = bytes at size split
  refine ⟨rfl, Nat.lt_of_not_le room,
    ⟨address, maxPayloadLen, tmp, bytes, deviceId, size, size.trans_le short⟩, ?_, rfl⟩
  simp only [SeedEntry.encode, List.append_assoc]
  rw [load_word_ok addressLoaded, load_word_ok limitLoaded, load_word_ok lenLoaded, split,
    load_word_ok deviceLoaded]

structure Stored (capacity : Nat) (reader final : Reader) (entries : List SeedEntry) : Prop where
  count : final.count = reader.count + entries.length
  bounded : final.count ≤ capacity
  others : ∀ slot, slot < reader.count → final.pktsBuf slot = reader.pktsBuf slot
  stored : ∀ index (inside : index < entries.length), final.pktsBuf (reader.count + index) =
    entries[index].store (reader.pktsBuf (reader.count + index))

theorem read_entries_encode {capacity turns : Nat} (entries : List SeedEntry) (reader : Reader)
    (here : mem.drop reader.n = entries.flatMap SeedEntry.encode) (reached : reader.n ≤ mem.length)
    (room : reader.count + entries.length ≤ capacity) (enough : entries.length < turns) :
    ∃ final, readEntries mem capacity turns reader = some (.ok (final, false)) ∧
      final.n = mem.length ∧ Stored capacity reader final entries := by
  obtain ⟨turns, rfl⟩ := Nat.exists_eq_succ_of_ne_zero (Nat.ne_zero_of_lt enough)
  induction entries generalizing reader turns with
  | nil =>
      have ends : mem.length ≤ reader.n := List.drop_eq_nil_iff.mp here
      rw [readEntries, if_neg (Nat.not_lt.mpr ends)]
      refine ⟨reader, rfl, Nat.le_antisymm reached ends, rfl, room, fun _ _ => rfl, ?_⟩
      intro index inside
      exact absurd inside (Nat.not_lt_zero index)
  | cons entry rest induction =>
      rw [List.length_cons] at room enough
      rw [List.flatMap_cons] at here
      have size := encode_length entry
      have some : entry.encode ≠ [] := by
        apply List.ne_nil_of_length_pos
        omega
      obtain ⟨inside, behind⟩ := drop_inside here some
      have slot : reader.count < capacity := by omega
      obtain ⟨turns, rfl⟩ :=
        Nat.exists_eq_succ_of_ne_zero (Nat.ne_zero_of_lt (Nat.lt_of_succ_lt_succ enough))
      let pktsBuf := Function.update reader.pktsBuf reader.count
        (entry.store (reader.pktsBuf reader.count))
      obtain ⟨final, run, ends, stored⟩ :=
        induction ⟨reader.n + entry.encode.length, reader.count + 1, pktsBuf⟩ behind inside
          (by simp only; omega) turns (by omega)
      refine ⟨final, ?_, ends, ?_, stored.bounded, ?_, ?_⟩
      · rw [readEntries, if_pos (by omega), read_entry_encode entry slot here]
        exact run
      · rw [stored.count, List.length_cons]
        simp only
        omega
      · intro other below
        rw [stored.others other (Nat.lt_succ_of_lt below)]
        exact Function.update_of_ne (Nat.ne_of_lt below) _ _
      · intro index inEntries
        cases index with
        | zero =>
            rw [Nat.add_zero, stored.others reader.count (Nat.lt_succ_self _)]
            exact Function.update_self _ _ _
        | succ index =>
            have place : reader.count + (index + 1) = reader.count + 1 + index := by omega
            have later := stored.stored index (Nat.lt_of_succ_lt_succ inEntries)
            rw [place]
            apply later.trans
            rw [List.getElem_cons_succ]
            have apart : reader.count + 1 + index ≠ reader.count := by omega
            exact congrArg _ (Function.update_of_ne apart _ _)

theorem read_entries_terminate {capacity turns : Nat} (reader : Reader)
    (enough : mem.length - reader.n < turns) : readEntries mem capacity turns reader ≠ none := by
  induction turns generalizing reader with
  | zero => omega
  | succ turns induction =>
      unfold readEntries
      split_ifs with inside
      · split
        · exact Option.some_ne_none _
        · exact Option.some_ne_none _
        · next next ok =>
            obtain ⟨-, -, entry, split, -⟩ := read_entry_ok ok
            have size := encode_length entry
            have lengths := congrArg List.length split
            rw [List.length_append, List.length_drop, List.length_drop] at lengths
            exact induction next (by omega)
      · exact Option.some_ne_none _

theorem read_entries_ok {capacity turns : Nat} {reader final : Reader} {malformed : Bool}
    (ok : readEntries mem capacity turns reader = some (.ok (final, malformed)))
    (bound : reader.count ≤ capacity) :
    malformed = false ∧ ∃ entries : List SeedEntry,
      mem.drop reader.n = entries.flatMap SeedEntry.encode ∧
        reader.count + entries.length ≤ capacity := by
  induction turns generalizing reader with
  | zero => cases ok
  | succ turns induction =>
      unfold readEntries at ok
      split_ifs at ok with inside
      · split at ok
        · cases ok
        · next read =>
            cases (read_entry_ok read).1
        · next next read =>
            obtain ⟨-, room, entry, split, count⟩ := read_entry_ok read
            obtain ⟨none, entries, here, fits⟩ := induction ok (by omega)
            refine ⟨none, entry :: entries, ?_, ?_⟩
            · rw [split, here, List.flatMap_cons]
            · rw [List.length_cons]
              omega
      · cases ok
        exact ⟨rfl, [], List.drop_eq_nil_of_le (Nat.not_lt.mp inside), bound⟩

def CompleteBefore (mem : List UInt8) (count : Nat) : Prop :=
  ∃ (entries : List SeedEntry) (rest : List UInt8),
    mem = entries.flatMap SeedEntry.encode ++ rest ∧ count = entries.length ∧
      ∀ (entry : SeedEntry) (behind : List UInt8), rest ≠ entry.encode ++ behind

/-- The reader reads inside the file, stores inside the packets and the record, ends,
and reports with the right count. -/
structure ReadsSafely (mem : List UInt8) (capacity : Nat) (pktsBuf : Nat → BlePkt) : Prop where
  ends : copyFileToSeqBuf1 mem capacity pktsBuf ≠ none
  insideFile : copyFileToSeqBuf1 mem capacity pktsBuf ≠ some (.error .readPastEnd)
  insidePacket : copyFileToSeqBuf1 mem capacity pktsBuf ≠ some (.error .packetOverrun)
  insideRecord : copyFileToSeqBuf1 mem capacity pktsBuf ≠ some (.error .recordOverrun)
  reported : ∀ reader, copyFileToSeqBuf1 mem capacity pktsBuf = some (.ok (reader, true)) →
    CompleteBefore mem reader.count

theorem reader_ends (mem : List UInt8) (capacity : Nat) (pktsBuf : Nat → BlePkt) :
    copyFileToSeqBuf1 mem capacity pktsBuf ≠ none :=
  read_entries_terminate ⟨0, 0, pktsBuf⟩ (Nat.lt_succ_of_le (Nat.sub_le _ _))

theorem entries_length_le (entries : List SeedEntry) :
    entries.length ≤ (entries.flatMap SeedEntry.encode).length := by
  induction entries with
  | nil => exact Nat.zero_le _
  | cons entry rest induction =>
      have size := encode_length entry
      rw [List.flatMap_cons, List.length_append, List.length_cons]
      omega

theorem copy_entries {capacity : Nat} (entries : List SeedEntry) (pktsBuf : Nat → BlePkt)
    (room : entries.length ≤ capacity) :
    ∃ final, copyFileToSeqBuf1 (entries.flatMap SeedEntry.encode) capacity pktsBuf =
        some (.ok (final, false)) ∧
      final.n = (entries.flatMap SeedEntry.encode).length ∧
      Stored capacity ⟨0, 0, pktsBuf⟩ final entries := by
  apply read_entries_encode entries ⟨0, 0, pktsBuf⟩ rfl (Nat.zero_le _)
  · rwa [Nat.zero_add]
  · exact Nat.lt_succ_of_le (entries_length_le entries)

/-- The reader is safe on the files that are complete entries for packets, no more
than the record has room for, and on no others. -/
theorem reads_safely_iff (mem : List UInt8) (capacity : Nat) (pktsBuf : Nat → BlePkt) :
    ReadsSafely mem capacity pktsBuf ↔ ∃ entries : List SeedEntry,
      mem = entries.flatMap SeedEntry.encode ∧ entries.length ≤ capacity := by
  constructor
  · intro safe
    cases run : copyFileToSeqBuf1 mem capacity pktsBuf with
    | none => exact absurd run safe.ends
    | some result =>
        cases result with
        | error fault =>
            cases fault with
            | readPastEnd => exact absurd run safe.insideFile
            | packetOverrun => exact absurd run safe.insidePacket
            | recordOverrun => exact absurd run safe.insideRecord
        | ok final =>
            obtain ⟨-, entries, here, fits⟩ := read_entries_ok run (Nat.zero_le capacity)
            refine ⟨entries, here, ?_⟩
            rwa [Nat.zero_add] at fits
  · rintro ⟨entries, rfl, fits⟩
    obtain ⟨final, run, -, -⟩ := copy_entries entries pktsBuf fits
    have result {other : Except ReadFault (Reader × Bool)} (different : other ≠ .ok (final, false)) :
        copyFileToSeqBuf1 (entries.flatMap SeedEntry.encode) capacity pktsBuf ≠ some other := by
      rw [run]
      exact fun same => different (Option.some.inj same).symm
    refine ⟨reader_ends _ _ _, result ?_, result ?_, result ?_, ?_⟩
    · exact fun same => by cases same
    · exact fun same => by cases same
    · exact fun same => by cases same
    · intro reader reported
      exact absurd reported (result fun same => by cases same)

end

/-- An entry without payload and without its last byte. The check passes, and the
device is read behind the end. -/
def cutEntry : List UInt8 :=
  wordBytes 4 0x8E89BED6 ++ wordBytes 8 27 ++ wordBytes 8 (-5) ++ [1, 0, 0]

theorem cut_entry_read_past_end :
    ¬ReadsSafely cutEntry 1 fun _ => BlePkt.ofMemory (fun _ => 0) 0 := by
  intro safe
  exact safe.insideFile rfl

theorem packet_len_written (len : UInt32) : packetLen (len - 2 - 3).toUInt64.toBitVec = len := by
  have cut : packetLen (len - 2 - 3).toUInt64.toBitVec = len - 2 - 3 + 2 + 3 := by
    rw [packetLen, UInt64.ofBitVec_toBitVec, UInt64.toUInt32_add, UInt64.toUInt32_add,
      UInt32.toUInt32_toUInt64]
    rfl
  have swapped : len - 2 - 3 + 2 + 3 = len - 2 - 3 + 3 + 2 := by
    rw [UInt32.add_assoc, UInt32.add_comm 2 3, ← UInt32.add_assoc]
  rw [cut, swapped, UInt32.sub_add_cancel, UInt32.sub_add_cancel]

def entryOf (packet : BlePkt) (bounded : packet.len.toNat ≤ blePktMaxLen) : SeedEntry where
  address := packet.address.toBitVec
  maxPayloadLen := packet.maxPayloadLen.toUInt64.toBitVec
  payloadLen := (packet.len - 2 - 3).toUInt64.toBitVec
  bytes := packet.pkt.toList.take packet.len.toNat
  deviceId := packet.deviceId.toBitVec
  sized := by
    rw [packet_len_written, List.length_take, Vector.length_toList]
    exact Nat.min_eq_left bounded
  short := by
    rw [List.length_take, Vector.length_toList]
    exact Nat.min_le_right _ _

structure SamePacket (got packet : BlePkt) : Prop where
  address : got.address = packet.address
  maxPayloadLen : got.maxPayloadLen = packet.maxPayloadLen
  len : got.len = packet.len
  bytes : ∀ index (inside : index < blePktMaxLen), index < packet.len.toNat →
    got.pkt[index] = packet.pkt[index]
  deviceId : got.deviceId = packet.deviceId

theorem stored_same_packet (packet old : BlePkt) (bounded : packet.len.toNat ≤ blePktMaxLen) :
    SamePacket ((entryOf packet bounded).store old) packet where
  address := rfl
  maxPayloadLen := UInt32.toUInt32_toUInt64 packet.maxPayloadLen
  len := packet_len_written packet.len
  bytes index inside below := by
    have inBytes : index < (packet.pkt.toList.take packet.len.toNat).length := by
      rw [List.length_take, Vector.length_toList]
      omega
    simp only [SeedEntry.store, entryOf, fill, Vector.getElem_ofFn,
      List.getD_eq_getElem _ _ inBytes, List.getElem_take, Vector.getElem_toList]
  deviceId := rfl

theorem save_encodes (packets : List BlePkt)
    (bounded : ∀ packet ∈ packets, packet.len.toNat ≤ blePktMaxLen) :
    packets.flatMap packetBytes = (packets.pmap entryOf bounded).flatMap SeedEntry.encode := by
  induction packets with
  | nil => rfl
  | cons packet rest induction =>
      rw [List.pmap_cons, List.flatMap_cons, List.flatMap_cons, induction]
      rfl

/-- A saved record is read back into a record with room for it: the count, every
packet in order, and the file to its end. -/
theorem portable_round_trip (pktRec : PktRecord) (capacity : Nat) (pktsBuf : Nat → BlePkt)
    (bounded : ∀ packet ∈ pktRec.packets, packet.len.toNat ≤ blePktMaxLen)
    (room : pktRec.count ≤ capacity) :
    ∃ final, copyFileToSeqBuf1 (saveSeqBufToFile1 pktRec) capacity pktsBuf =
        some (.ok (final, false)) ∧
      final.n = (saveSeqBufToFile1 pktRec).length ∧ final.count = pktRec.count ∧
      ∀ index (inside : index < pktRec.packets.length),
        SamePacket (final.pktsBuf index) pktRec.packets[index] := by
  have encoded := save_encodes pktRec.packets bounded
  have length : (pktRec.packets.pmap entryOf bounded).length = pktRec.count := List.length_pmap
  obtain ⟨final, run, ends, stored⟩ :=
    copy_entries (pktRec.packets.pmap entryOf bounded) pktsBuf (length.trans_le room)
  rw [← encoded] at run ends
  refine ⟨final, run, ends, ?_, ?_⟩
  · rw [stored.count, length, Nat.zero_add]
  · intro index inside
    have slot := stored.stored index (by rwa [List.length_pmap])
    rw [Nat.zero_add, List.getElem_pmap] at slot
    rw [slot]
    exact stored_same_packet _ _ _

def twoPackets : PktRecord :=
  ⟨2, [⟨0, 1, 0, 0x8E89BED6, 11, 37, Vector.replicate _ 6⟩,
    ⟨1, 2, 0, 0x50655D41, 3, 27, Vector.replicate _ 1⟩], Nat.le_refl 2⟩

theorem two_packets_round_trip :
    ∃ final, copyFileToSeqBuf1 (saveSeqBufToFile1 twoPackets) 2
        (fun _ => BlePkt.ofMemory (fun _ => 0) 0) = some (.ok (final, false)) ∧
      final.n = (saveSeqBufToFile1 twoPackets).length ∧ final.count = twoPackets.count ∧
      ∀ index (inside : index < twoPackets.packets.length),
        SamePacket (final.pktsBuf index) twoPackets.packets[index] :=
  portable_round_trip twoPackets 2 _ (by decide) (by decide)

end Blueman.PortableSeed
