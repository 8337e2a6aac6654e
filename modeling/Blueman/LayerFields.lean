import Blueman.MutatorFullStack2Frame

/-!
# The protocol fields a layer mutator keeps

The three mutators that stay in `pkt->pkt` leave the acknowledgement bits of a
data header, the flags of an advertising header and the headers below L2CAP as
they are. What they may change is a few bits of byte 0 and a range of bytes.
-/

namespace Blueman.LayerFields

open LittleEndian ByteMachine BlePacket MutateStrategy Mutator MutatorFullStack2
open MutatorFullStack2Frame

set_option autoImplicit false

/-- Of byte 0 of the packet the bits in `keep` are as before, and of all other
bytes those outside `changed`. -/
structure HeaderKept (keep : UInt8) (changed : Set Nat) (before after : Memory) : Prop where
  header : after pktOffset &&& keep = before pktOffset &&& keep
  others : ∀ position, position ≠ pktOffset → position ∉ changed → after position = before position

section

variable {keep : UInt8} {changed : Set Nat}

theorem HeaderKept.refl (memory : Memory) : HeaderKept keep changed memory memory :=
  ⟨rfl, fun _ _ _ => rfl⟩

theorem HeaderKept.trans {first second third : Memory} (left : HeaderKept keep changed first second)
    (right : HeaderKept keep changed second third) : HeaderKept keep changed first third := by
  constructor
  · exact right.header.trans left.header
  · intro position different outside
    exact (right.others position different outside).trans (left.others position different outside)

theorem header_kept_of_within {reach : Set Nat} {before after : Store}
    (frame : Within reach changed before after) (outside : pktOffset ∉ changed) :
    HeaderKept keep changed before.memory after.memory := by
  constructor
  · rw [frame.unchanged pktOffset outside]
  · intro position _ apart
    exact frame.unchanged position apart

/-- Whatever is drawn, the program keeps the header, also when it faults. -/
def Keeps (keep : UInt8) (changed : Set Nat) {Value : Type} (program : Program Rand Value) : Prop :=
  ∀ store, Ensures program store (fun _ after => HeaderKept keep changed store.memory after.memory)
    fun _ after => HeaderKept keep changed store.memory after.memory

theorem keeps_pure {Value : Type} (value : Value) :
    Keeps keep changed (pure value : Program Rand Value) :=
  fun store => ensures_pure (.refl store.memory)

theorem keeps_bind {Value Other : Type} {program : Program Rand Value}
    {next : Value → Program Rand Other} (first : Keeps keep changed program)
    (second : ∀ value, Keeps keep changed (next value)) : Keeps keep changed (program >>= next) := by
  intro store
  apply ensures_bind
  apply (first store).mono
  · intro value middle before
    apply (second value middle).mono
    · intro _ after behind
      exact before.trans behind
    · intro _ after behind
      exact before.trans behind
  · intro _ after before
    exact before

theorem keeps_whenever {condition : Prop} [Decidable condition] {program : Program Rand Unit}
    (kept : Keeps keep changed program) : Keeps keep changed (whenever condition program) :=
  fun store => ensures_whenever (fun _ => kept store) fun _ => .refl store.memory

theorem keeps_of_confined {reach : Set Nat} {Value : Type} {program : Program Rand Value}
    (confined : Confined reach changed program) (outside : pktOffset ∉ changed) :
    Keeps keep changed program := by
  intro store
  apply Ensures.mono (confined store)
  · intro _ after frame
    exact header_kept_of_within frame outside
  · intro _ after frame
    exact header_kept_of_within frame outside

/-- A byte in which only the bits of `mask` are replaced. -/
theorem replaced_bits_keep {old drawn mask : UInt8} (clear : mask &&& keep = 0) :
    (old &&& ~~~mask ||| drawn &&& mask) &&& keep = old &&& keep := by
  apply byte_ext
  intro bit inByte
  have bits := congrArg (fun byte : UInt8 => byte.toBitVec.getLsbD bit) clear
  simp only [UInt8.toBitVec_and, UInt8.toBitVec_or, UInt8.toBitVec_not, BitVec.getLsbD_and,
    BitVec.getLsbD_or, BitVec.getLsbD_not] at bits ⊢
  cases masked : mask.toBitVec.getLsbD bit with
  | false => simp [inByte]
  | true =>
      rw [masked, Bool.true_and] at bits
      rw [bits]
      simp

/-- Random bits of the header, replaced under the mask that their width and shift
give. -/
theorem rand_bits_keeps {S N : Nat} {mask : UInt8} (inByte : S < 8)
    (width : bitsArr[N]? = some mask) (clear : mask >>> UInt8.ofNat S &&& keep = 0) :
    Keeps keep changed (mutateRandBits pktOffset 2 S N) := by
  intro store
  have first : pktOffset + S / 8 = pktOffset := by omega
  have shift : S % 8 = S := Nat.mod_eq_of_lt inByte
  apply ensures_if
  · intro _
    exact ensures_pure (.refl store.memory)
  · intro _
    rw [first, shift]
    apply ensures_bind
    apply ensures_rand
    intro drawn _
    rw [lookup_eq width, pure_bind]
    apply ensures_bind
    apply ensures_load
    apply ensures_bind
    apply ensures_save
    apply ensures_bind
    apply ensures_load
    apply ensures_save
    constructor
    · simp only [Store.put, Store.touch, Function.update_self]
      rw [UInt8.shiftRight_and]
      exact replaced_bits_keep clear
    · intro position different _
      simp only [Store.put, Store.touch, Function.update_of_ne different]

end

/-- The link layer payload of a packet of length `len`. -/
abbrev llFields (len : UInt32) : Set Nat :=
  region (getLlDataPayload pktOffset) (llPayloadLen len).toNat

theorem header_outside {first length : Nat} (behind : pktOffset < first) :
    pktOffset ∉ region first length := by
  intro member
  have lower := (Set.mem_Ico.mp member).1
  omega

theorem bits_and_payload_keep {keep : UInt8} (condition : Nat → Prop) [DecidablePred condition]
    {len : UInt32} {bits : Program Rand Unit} (kept : Keeps keep (llFields len) bits) :
    Keeps keep (llFields len) (do
      let choice ← rand
      whenever (condition choice) bits
      mutateHavoc (getLlDataPayload pktOffset) (llPayloadLen len).toNat blePktMaxLen
      return 1 : Program Rand Nat) := by
  have outside : pktOffset ∉ llFields len := header_outside (by decide)
  apply keeps_bind (keeps_of_confined (@confined_rand ∅ _) outside)
  intro choice
  apply keeps_bind (keeps_whenever kept)
  intro _
  apply keeps_bind (keeps_of_confined (havoc_confined _ _ _) outside)
  intro _
  exact keeps_pure 1

theorem ll_data_keeps (store : Store) :
    Ensures llDataMutator store
      (fun _ after => HeaderKept 0x0C (llFields (fieldOf store lenOffset)) store.memory after.memory)
      fun _ after => HeaderKept 0x0C (llFields (fieldOf store lenOffset)) store.memory after.memory := by
  apply ensures_bind
  apply ensures_load_field
  generalize fieldOf store lenOffset = len
  apply ensures_if
  · intro _
    exact ensures_pure (.refl store.memory)
  · intro _
    -- the LLID, then MD and RFU
    have bits : Keeps 0x0C (llFields len) (do
        mutateRandBits (getLlDataHeader pktOffset) 2 6 2
        mutateRandBits (getLlDataHeader pktOffset) 2 0 4) := by
      apply keeps_bind (rand_bits_keeps (by decide) rfl (by decide))
      intro _
      exact rand_bits_keeps (by decide) rfl (by decide)
    exact bits_and_payload_keep (fun choice => choice % 100 < 30) bits (store.touch _)

theorem ll_advertising_keeps (store : Store) :
    Ensures llAdvertisingMutator store
      (fun _ after => HeaderKept 0xF0 (llFields (fieldOf store lenOffset)) store.memory after.memory)
      fun _ after => HeaderKept 0xF0 (llFields (fieldOf store lenOffset)) store.memory after.memory := by
  apply ensures_bind
  apply ensures_load_field
  generalize fieldOf store lenOffset = len
  apply ensures_if
  · intro _
    exact ensures_pure (.refl store.memory)
  · intro _
    -- the PDU type
    have bits : Keeps 0xF0 (llFields len) (mutateRandBits (getLlAdvHeader pktOffset) 2 4 4) :=
      rand_bits_keeps (by decide) rfl (by decide)
    exact bits_and_payload_keep (fun choice => choice % 100 < 10) bits (store.touch _)

theorem l2cap_keeps (store : Store) :
    Ensures l2capMutator store
      (fun _ after => HeaderKept 0xFF (l2capFields (fieldOf store lenOffset)) store.memory after.memory)
      fun _ after => HeaderKept 0xFF (l2capFields (fieldOf store lenOffset)) store.memory after.memory := by
  have outside : pktOffset ∉ l2capFields (fieldOf store lenOffset) := header_outside (by decide)
  apply Ensures.mono (l2cap_fields_confined store)
  · intro _ after frame
    exact header_kept_of_within frame outside
  · intro _ after frame
    exact header_kept_of_within frame outside

/-- The packet after a mutation: of byte 0 the bits in `keep`, and of the other
bytes those before `first` and from three before the end on, are as they were,
and so are the metadata and the memory behind the record. -/
structure FieldsKept (keep : UInt8) (first : Nat) (packet : BlePkt) (beyond : Memory)
    (after : Store) : Prop where
  metadata : recordOf after = { packet with pkt := (recordOf after).pkt }
  header : (recordOf after).pkt[0] &&& keep = packet.pkt[0] &&& keep
  others : ∀ (index : Nat) (inside : index < blePktMaxLen), index ≠ 0 →
    index < first ∨ packet.len.toNat - 3 ≤ index →
      (recordOf after).pkt[index] = packet.pkt[index]
  behind : ∀ position, blePktSize ≤ position → after.memory position = beyond position

/-- Below `pkt->pkt` there are only the metadata. -/
theorem record_metadata {before after : Store}
    (below : ∀ position, position < pktOffset → after.memory position = before.memory position) :
    recordOf after = { recordOf before with pkt := (recordOf after).pkt } := by
  have field (offset : Nat) (inside : offset + 4 ≤ pktOffset) :
      fieldAt after.memory (packetAddress + offset) =
        fieldAt before.memory (packetAddress + offset) := by
    apply field_at_congr
    intro index inWord
    have position : packetAddress + offset + index < pktOffset := by
      have start : packetAddress = 0 := rfl
      omega
    exact below _ position
  apply BlePkt.ext
  · exact field 0 (by decide)
  · exact field deviceIdOffset (by decide)
  · exact field mutatedOffset (by decide)
  · exact field addressOffset (by decide)
  · exact field lenOffset (by decide)
  · exact field maxPayloadLenOffset (by decide)
  · rfl

theorem record_pkt (store : Store) (index : Nat) (inside : index < blePktMaxLen) :
    (recordOf store).pkt[index] = store.memory (pktOffset + index) := by
  have start : packetAddress + pktOffset = pktOffset := rfl
  rw [recordOf, of_memory_pkt_get, start]

theorem fields_kept {keep : UInt8} {changed : Set Nat} {first : Nat} {packet : BlePkt}
    {beyond : Memory} {after : Store}
    (kept : HeaderKept keep changed (place packet beyond).memory after.memory)
    (range : ∀ position ∈ changed, pktOffset + first ≤ position ∧
      position < pktOffset + (packet.len.toNat - 3)) (upper : packet.len.toNat ≤ 255) :
    FieldsKept keep first packet beyond after := by
  have placed := record_of_place packet beyond
  have byte (index : Nat) (inside : index < blePktMaxLen) :
      packet.pkt[index] = (place packet beyond).memory (pktOffset + index) := by
    rw [← record_pkt, placed]
  have size : blePktSize = pktOffset + 255 := rfl
  constructor
  · have same := @record_metadata (place packet beyond) after
    rw [placed] at same
    apply same
    intro position below
    apply kept.others position (by omega)
    intro member
    have lower := (range position member).1
    omega
  · rw [record_pkt _ _ (by decide), byte 0 (by decide)]
    exact kept.header
  · intro index inside different apart
    rw [record_pkt _ _ inside, byte index inside]
    apply kept.others
    · omega
    · intro member
      obtain ⟨lower, higher⟩ := range _ member
      omega
  · intro position far
    have outside : (place packet beyond).memory position = beyond position :=
      if_neg (Nat.not_lt.mpr far)
    rw [← outside]
    apply kept.others position (by omega)
    intro member
    have higher := (range position member).2
    omega

theorem ll_fields_range {len : UInt32} (lower : 5 ≤ len.toNat) (upper : len.toNat ≤ 255)
    (position : Nat) (member : position ∈ llFields len) :
    pktOffset + 2 ≤ position ∧ position < pktOffset + (len.toNat - 3) := by
  obtain ⟨first, last⟩ := Set.mem_Ico.mp member
  have layout := pkt_layout
  have payload := payload_len_of_small len lower (by omega)
  omega

theorem l2cap_fields_range {len : UInt32} (lower : 5 ≤ len.toNat) (upper : len.toNat ≤ 255)
    (position : Nat) (member : position ∈ l2capFields len) :
    pktOffset + 4 ≤ position ∧ position < pktOffset + (len.toNat - 3) := by
  obtain ⟨first, last⟩ := Set.mem_Ico.mp member
  have layout := pkt_layout
  have payload := payload_len_of_small len lower (by omega)
  omega

theorem ensures_fields {program : Program Rand Nat} {keep : UInt8} {changed : Set Nat}
    {first : Nat} {packet : BlePkt} {beyond : Memory} (faultless : Faultless program)
    (kept : Ensures program (place packet beyond)
      (fun _ after => HeaderKept keep changed (place packet beyond).memory after.memory)
      fun _ after => HeaderKept keep changed (place packet beyond).memory after.memory)
    (range : ∀ position ∈ changed, pktOffset + first ≤ position ∧
      position < pktOffset + (packet.len.toNat - 3)) (upper : packet.len.toNat ≤ 255) :
    Ensures program (place packet beyond)
      (fun _ after => FieldsKept keep first packet beyond after) fun _ _ => False := by
  apply (faultless.ensures kept).mono
  · intro _ after holds
    exact fields_kept holds range upper
  · intro _ _ absurd
    exact absurd

/-- Whatever is drawn, the data mutator keeps NESN and SN, the advertising mutator
the high nibble of the header, and the L2CAP mutator both headers up to the channel
identifier; none of them changes the metadata, the last three bytes of the packet
or anything behind. A packet without L2CAP payload is left as it is by the last. -/
theorem layer_mutators_keep_fields (packet : BlePkt) (beyond : Memory)
    (lower : 5 ≤ packet.len.toNat) (upper : packet.len.toNat ≤ 255) :
    Ensures llDataMutator (place packet beyond)
      (fun _ after => FieldsKept 0x0C 2 packet beyond after) (fun _ _ => False) ∧
    Ensures llAdvertisingMutator (place packet beyond)
      (fun _ after => FieldsKept 0xF0 2 packet beyond after) (fun _ _ => False) ∧
    Ensures l2capMutator (place packet beyond)
      (fun _ after => FieldsKept 0xFF 4 packet beyond after ∧
        (packet.len.toNat - 5 ≤ 4 → after.memory = (place packet beyond).memory))
      fun _ _ => False := by
  have placed := (place_field packet beyond).1
  have data := ll_data_keeps (place packet beyond)
  have advertising := ll_advertising_keeps (place packet beyond)
  have l2cap := l2cap_keeps (place packet beyond)
  have faultless := run_layer_mutator_faultless (some .l2cap)
  rw [placed] at data advertising l2cap
  refine ⟨?_, ?_, ?_⟩
  · exact ensures_fields (run_layer_mutator_faultless (some .llData)) data
      (ll_fields_range lower upper) upper
  · exact ensures_fields (run_layer_mutator_faultless (some .llAdvertising)) advertising
      (ll_fields_range lower upper) upper
  · have fields := ensures_fields faultless l2cap (l2cap_fields_range lower upper) upper
    by_cases short : packet.len.toNat - 5 ≤ 4
    · have payload := payload_len_of_small packet.len lower (by omega)
      have idle := l2cap_short_confined (place packet beyond) (by rw [placed]; omega)
      apply (Ensures.both fields (faultless.ensures idle)).mono
      · rintro _ after ⟨kept, frame⟩
        exact ⟨kept, fun _ => frame.memory_eq⟩
      · intro _ _ both
        exact both.1
    · apply fields.mono
      · intro _ after kept
        exact ⟨kept, fun few => absurd few short⟩
      · intro _ _ absurd
        exact absurd

theorem mtu_request_fields_kept :
    Ensures llDataMutator (place mtuRequest zeros)
      (fun _ after => FieldsKept 0x0C 2 mtuRequest zeros after) fun _ _ => False :=
  (layer_mutators_keep_fields mtuRequest zeros (by decide) (by decide)).1

end Blueman.LayerFields
