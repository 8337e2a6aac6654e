import Blueman.BlePacket
import Blueman.MutateStrategy

/-!
# What the three mutators share

The address macros of `mutator.h`, the layers a packet can belong to, and the
packet in memory: the record lies at address 0, `pkt->pkt` at `pktOffset`, and
whatever the process keeps behind the record is an arbitrary memory `beyond`.
-/

namespace Blueman.Mutator

open LittleEndian ByteMachine BlePacket MutateStrategy

set_option autoImplicit false

inductive FuzzLayer
  | ll
  | l2cap
  | sm
  | att
deriving DecidableEq, Repr

/-- The address of the record itself, which `(uint8_t*)pkt` denotes. -/
abbrev packetAddress : Nat := 0

abbrev getLlAdvHeader (llPkt : Nat) : Nat := llPkt
abbrev getLlAdvPayload (llPkt : Nat) : Nat := llPkt + 2
abbrev getLlDataHeader (llPkt : Nat) : Nat := llPkt
abbrev llHeaderLen : Nat := 2
abbrev getLlDataPayload (llPkt : Nat) : Nat := llPkt + llHeaderLen
abbrev l2capHeaderLen : Nat := 4
abbrev getL2capHeader (llPkt : Nat) : Nat := getLlDataPayload llPkt
abbrev getL2capPayload (llPkt : Nat) : Nat := getL2capHeader llPkt + l2capHeaderLen
abbrev attOpcodeLen : Nat := 1
abbrev getAttOpcode (llPkt : Nat) : Nat := getL2capPayload llPkt
abbrev getAttParams (llPkt : Nat) : Nat := getAttOpcode llPkt + attOpcodeLen
abbrev smCodeLen : Nat := 1
abbrev getSmCode (llPkt : Nat) : Nat := getL2capPayload llPkt
abbrev getSmData (llPkt : Nat) : Nat := getSmCode llPkt + smCodeLen

/-- The addresses the macros give inside `pkt->pkt`. -/
theorem pkt_layout :
    pktOffset = 24 ∧ getLlDataHeader pktOffset = 24 ∧ getLlAdvHeader pktOffset = 24 ∧
      getLlDataPayload pktOffset = 26 ∧ getLlAdvPayload pktOffset = 26 ∧
      getL2capHeader pktOffset = 26 ∧ getL2capPayload pktOffset = 30 ∧ l2capHeaderLen = 4 := by
  decide

/-- A 32-bit value assigned to an `int32_t`. -/
def toInt32 (word : UInt32) : Int := word.toBitVec.toInt

def loadField (offset : Nat) : Program Rand UInt32 := do
  let word ← loadWord 4 (packetAddress + offset)
  return UInt32.ofBitVec word

def saveField (offset : Nat) (value : UInt32) : Program Rand Unit :=
  saveWord 4 (packetAddress + offset) value.toBitVec

/-- `max_payload_len > BLE_PKT_MAX_LEN ? BLE_PKT_MAX_LEN : max_payload_len` -/
def clamp (maxPayloadLen : UInt32) : UInt32 := if maxPayloadLen > 255 then 255 else maxPayloadLen

theorem clamp_le (maxPayloadLen : UInt32) :
    (clamp maxPayloadLen).toNat ≤ 255 ∧ (clamp maxPayloadLen).toNat ≤ maxPayloadLen.toNat := by
  unfold clamp
  split_ifs with above
  · have large : 255 < maxPayloadLen.toNat := UInt32.lt_iff_toNat_lt.mp above
    exact ⟨Nat.le_refl 255, Nat.le_of_lt large⟩
  · have small : maxPayloadLen.toNat ≤ 255 := Nat.le_of_not_lt fun large =>
      above (UInt32.lt_iff_toNat_lt.mpr large)
    exact ⟨small, Nat.le_refl _⟩

theorem clamp_of_le {maxPayloadLen : UInt32} (small : maxPayloadLen.toNat ≤ 255) :
    clamp maxPayloadLen = maxPayloadLen :=
  if_neg fun above => absurd (UInt32.lt_iff_toNat_lt.mp above) (Nat.not_lt.mpr small)

def advertisingAddress : UInt32 := 0x8E89BED6

def isDataPacket : Program Rand Bool := do
  let accessAddress ← loadField addressOffset
  return decide (accessAddress ≠ advertisingAddress)

/-- The parser shared, text for text, by the field-aware and the random mutator. -/
def getUpperLayerTypeForZephyr : Program Rand FuzzLayer := do
  let llHeader := getLlDataHeader pktOffset
  let llid := (← load llHeader) &&& 0b11
  let llPayloadLen ← load (llHeader + 1)
  let llPayload := getLlDataPayload pktOffset
  -- an LL control PDU, or too short for an L2CAP header
  if llid = 0b11 then return .ll
  else if (llPayloadLen.toNat : Int) - 4 < 0 then return .ll
  else if llid = 0b10 then do
    -- the start of an L2CAP fragment
    let cid ← loadWord 2 (llPayload + 2)
    return if cid = 0x4 then .att else if cid = 0x6 then .sm else .l2cap
  else return .l2cap

def layerAt (memory : Memory) : FuzzLayer :=
  if memory pktOffset &&& 0b11 = 0b11 then .ll
  else if ((memory (pktOffset + 1)).toNat : Int) - 4 < 0 then .ll
  else if memory pktOffset &&& 0b11 = 0b10 then
    let cid := readWord 2 memory (getLlDataPayload pktOffset + 2)
    if cid = 0x4 then .att else if cid = 0x6 then .sm else .l2cap
  else .l2cap

theorem upper_layer_type_ensures (store : Store) {crash : Fault → Store → Prop} :
    Ensures getUpperLayerTypeForZephyr store
      (fun layer after => layer = layerAt store.memory ∧ after.memory = store.memory) crash := by
  unfold getUpperLayerTypeForZephyr
  refine ensures_bind (ensures_load (ensures_bind (ensures_load ?_)))
  refine ensures_if (fun control => ensures_pure ⟨?_, rfl⟩) fun data => ?_
  · have isControl : store.memory pktOffset &&& 0b11 = 0b11 := control
    rw [layerAt, if_pos isControl]
  have notControl : ¬store.memory pktOffset &&& 0b11 = 0b11 := data
  refine ensures_if (fun short => ensures_pure ⟨?_, rfl⟩) fun long => ?_
  · have isShort : ((store.memory (pktOffset + 1)).toNat : Int) - 4 < 0 := short
    rw [layerAt, if_neg notControl, if_pos isShort]
  have notShort : ¬((store.memory (pktOffset + 1)).toNat : Int) - 4 < 0 := long
  refine ensures_if (fun start => ?_) fun rest => ensures_pure ⟨?_, rfl⟩
  · have isStart : store.memory pktOffset &&& 0b11 = 0b10 := start
    refine ensures_bind (ensures_load_word (ensures_pure ⟨?_, rfl⟩))
    rw [layerAt, if_neg notControl, if_neg notShort, if_pos isStart]
    rfl
  · have notStart : ¬store.memory pktOffset &&& 0b11 = 0b10 := rest
    rw [layerAt, if_neg notControl, if_neg notShort, if_neg notStart]

theorem upper_layer_type_confined {reach changed : Set Nat}
    (inside : ∀ index, index < 6 → pktOffset + index ∈ reach) :
    Confined reach changed getUpperLayerTypeForZephyr := by
  apply confined_bind (confined_load (inside 0 (by omega)))
  intro _
  apply confined_bind (confined_load (inside 1 (by omega)))
  intro _
  refine confined_if (fun _ => confined_pure _) fun _ => confined_if (fun _ => confined_pure _)
    fun _ => confined_if (fun _ => ?_) fun _ => confined_pure _
  refine confined_bind (confined_load_word fun index inWord => ?_) fun _ => confined_pure _
  have position : getLlDataPayload pktOffset + 2 + index = pktOffset + (4 + index) := by
    simp only [getLlDataPayload, llHeaderLen]
    omega
  rw [position]
  exact inside (4 + index) (by omega)

def place (packet : BlePkt) (beyond : Memory) : Store where
  memory position := if position < blePktSize then packet.image position else beyond position
  touched := []

def recordOf (store : Store) : BlePkt := BlePkt.ofMemory store.memory packetAddress

def runMutator (program : Program Rand Nat) (beyond : Memory) (packet : BlePkt)
    (draws : Stream' Rand) : EStateM.Result Fault (Machine Rand) Nat :=
  program ⟨place packet beyond, draws⟩

/-- The packet as a run leaves it, also when the run ends in a fault. -/
def finalRecord : EStateM.Result Fault (Machine Rand) Nat → BlePkt
  | .ok _ after => recordOf after.store
  | .error _ after => recordOf after.store

theorem final_record_ensures {program : Program Rand Nat} {beyond : Memory} {packet : BlePkt}
    {keeps : BlePkt → Prop}
    (holds : Ensures program (place packet beyond) (fun _ after => keeps (recordOf after))
      fun _ after => keeps (recordOf after)) (draws : Stream' Rand) :
    keeps (finalRecord (runMutator program beyond packet draws)) := by
  unfold runMutator
  cases run : program ⟨place packet beyond, draws⟩ with
  | ok value after => exact holds.returned run
  | error fault after => exact holds.faulted run

theorem record_of_place (packet : BlePkt) (beyond : Memory) :
    recordOf (place packet beyond) = packet := by
  apply of_memory_image packet _ _
  intro position inside
  rw [Nat.zero_add]
  exact if_pos inside

def fieldOf (store : Store) (offset : Nat) : UInt32 := fieldAt store.memory (packetAddress + offset)

theorem ensures_load_field {store : Store} {offset : Nat} {post : UInt32 → Store → Prop}
    {crash : Fault → Store → Prop}
    (holds : post (fieldOf store offset)
      (store.touch (List.range' (packetAddress + offset) 4))) :
    Ensures (loadField offset) store post crash :=
  ensures_bind (ensures_load_word (ensures_pure holds))

theorem possibly_load_field {store : Store} {offset : Nat} {post : UInt32 → Store → Prop}
    (holds : post (fieldOf store offset)
      (store.touch (List.range' (packetAddress + offset) 4))) :
    Possibly (loadField offset) store post :=
  possibly_bind (possibly_load_word (possibly_pure holds))

theorem returns_load_field {store : Store} {draws : Stream' Rand} {offset : Nat}
    {post : UInt32 → Store → Stream' Rand → Prop}
    (holds : post (fieldOf store offset)
      (store.touch (List.range' (packetAddress + offset) 4)) draws) :
    Returns (loadField offset) store draws post :=
  returns_bind (returns_load_word (returns_pure holds))

theorem confined_load_field {reach changed : Set Nat} {offset : Nat}
    (inside : ∀ index, index < 4 → offset + index ∈ reach) :
    Confined reach changed (loadField offset) := by
  refine confined_bind (confined_load_word ?_) fun _ => confined_pure _
  simpa [packetAddress] using inside

theorem confined_save_field {reach changed : Set Nat} {offset : Nat} (value : UInt32)
    (inside : ∀ index, index < 4 → offset + index ∈ reach)
    (allowed : ∀ index, index < 4 → offset + index ∈ changed) :
    Confined reach changed (saveField offset value) := by
  refine confined_save_word _ ?_ ?_
  · simpa [packetAddress] using inside
  · simpa [packetAddress] using allowed

theorem confined_load_field_bind {reach changed : Set Nat} {Value : Type} {store : Store}
    {offset : Nat} {next : UInt32 → Program Rand Value}
    (inside : ∀ index, index < 4 → offset + index ∈ reach)
    (second : ∀ middle, middle.memory = store.memory →
      ConfinedFrom middle reach changed (next (fieldOf store offset))) :
    ConfinedFrom store reach changed (loadField offset >>= next) := by
  have known : Ensures (loadField offset) store
      (fun value middle => value = fieldOf store offset ∧ middle.memory = store.memory)
      fun _ _ => False := ensures_load_field ⟨rfl, rfl⟩
  apply confined_from_bind (confined_load_field inside store) known
  rintro value middle ⟨rfl, same⟩
  exact second middle same

theorem load_field_faultless (offset : Nat) : Faultless (loadField offset) :=
  faultless_bind (faultless_load_word _ _) fun _ => faultless_pure _

theorem save_field_faultless (offset : Nat) (value : UInt32) :
    Faultless (saveField offset value) := faultless_save_word _ _ _

theorem field_of_congr {left right : Store} (same : left.memory = right.memory) (offset : Nat) :
    fieldOf left offset = fieldOf right offset := congrArg (fieldAt · _) same

@[simp] theorem field_of_touch (store : Store) (addresses : List Nat) (offset : Nat) :
    fieldOf (store.touch addresses) offset = fieldOf store offset := rfl

def putField (store : Store) (offset : Nat) (value : UInt32) : Store :=
  store.putWord 4 (packetAddress + offset) value.toBitVec

@[simp] theorem field_of_put_field (store : Store) (offset : Nat) (value : UInt32) :
    fieldOf (putField store offset value) offset = value := by
  change UInt32.ofBitVec (readWord 4 (writeWord 4 _ _ _) _) = value
  rw [read_write_word]

theorem field_of_put_field_other (store : Store) (offset other : Nat) (value : UInt32)
    (apart : other + 4 ≤ offset ∨ offset + 4 ≤ other) :
    fieldOf (putField store offset value) other = fieldOf store other := by
  change UInt32.ofBitVec (readWord 4 (writeWord 4 _ _ _) _) = UInt32.ofBitVec (readWord 4 _ _)
  rw [read_word_write_outside]
  simpa [packetAddress] using apart

theorem within_field_of {reach changed : Set Nat} {before after : Store}
    (frame : Within reach changed before after) (offset : Nat)
    (outside : ∀ index, index < 4 → offset + index ∉ changed) :
    fieldOf after offset = fieldOf before offset := by
  refine field_at_congr fun index inWord => frame.unchanged _ ?_
  simpa [packetAddress] using outside index inWord

end Blueman.Mutator
