import Blueman.Mutator

/-!
# The random mutator

`mutator_random.c`. Its parser and `is_data_packet` are the shared ones. A
maximal payload length of zero stops it on the remainder by that length.
-/

namespace Blueman.MutatorRandom

open LittleEndian ByteMachine BlePacket MutateStrategy Mutator

set_option autoImplicit false

/-- The rounds over the payload, and the end both mutators have in common. -/
def mutatePayload (header payload newPayloadLen : Nat) : Program Rand Nat := do
  whenever (newPayloadLen ≠ 0) do
    let maxMutationRound := (← remainder (← rand) newPayloadLen) + 3
    forRange (fun _ => mutateRandomByte payload newPayloadLen) 0 (maxMutationRound / 3)
  save (header + 1) (UInt8.ofNat newPayloadLen)
  saveField lenOffset (UInt32.ofNat (newPayloadLen + 2 + 3))
  return newPayloadLen

def llAdvertisingMutator : Program Rand Nat := do
  let len ← loadField lenOffset
  if len ≤ 5 then return 0
  else do
    let payloadLen := len - 2 - 3
    let maxPayloadLen ← loadField maxPayloadLenOffset
    let choice ← rand
    let newPayloadLen ← (if choice % 100 ≥ 50 then do
        return (← remainder (← rand) (clamp maxPayloadLen).toNat) + 1
      else pure payloadLen.toNat : Program Rand Nat)
    mutateRandomByte (getLlAdvHeader pktOffset) 1
    mutatePayload (getLlAdvHeader pktOffset) (getLlAdvPayload pktOffset) newPayloadLen

/-- The layer is passed in and not used. -/
def llDataMutator (_topLayerType : FuzzLayer) : Program Rand Nat := do
  let len ← loadField lenOffset
  if len ≤ 5 then return 0
  else do
    let maxPayloadLen ← loadField maxPayloadLenOffset
    let newPayloadLen := (← remainder (← rand) (clamp maxPayloadLen).toNat) + 1
    mutateRandomByte (getLlDataHeader pktOffset) 1
    mutatePayload (getLlDataHeader pktOffset) (getLlDataPayload pktOffset) newPayloadLen

def mutateStrategy : Program Rand Nat := do
  let skip ← rand
  if skip % 100 ≥ 98 then return 0
  else do
    let ret ← (do
      if ← isDataPacket then llDataMutator (← getUpperLayerTypeForZephyr)
      else llAdvertisingMutator : Program Rand Nat)
    whenever (ret ≠ 0) (saveField mutatedOffset 1)
    return ret

def mutatePkt (_idx : Nat) : Program Rand Nat := mutateStrategy

/-- The payload, the length byte of the header, and `len`. -/
abbrev payloadFields (header payload newPayloadLen : Nat) : Set Nat :=
  region payload newPayloadLen ∪ (region (header + 1) 1 ∪ region lenOffset 4)

theorem mutate_payload_confined (header payload newPayloadLen : Nat) :
    Confined (payloadFields header payload newPayloadLen)
      (payloadFields header payload newPayloadLen)
      (mutatePayload header payload newPayloadLen) := by
  have inPayload : region payload newPayloadLen ⊆ payloadFields header payload newPayloadLen :=
    Set.subset_union_left
  have lengthByte : header + 1 ∈ payloadFields header payload newPayloadLen :=
    .inr (.inl (Set.mem_Ico.mpr ⟨Nat.le_refl _, Nat.lt_succ_self _⟩))
  have len (index : Nat) (inWord : index < 4) :
      lenOffset + index ∈ payloadFields header payload newPayloadLen :=
    .inr (.inr (Set.mem_Ico.mpr ⟨Nat.le_add_right _ _, Nat.add_lt_add_left inWord _⟩))
  apply confined_bind
  · apply confined_whenever
    intro _
    apply confined_bind confined_rand
    intro _
    apply confined_bind (confined_remainder _ _)
    intro _
    apply confined_for_range
    intro _ _ _
    exact (random_byte_confined payload newPayloadLen).mono inPayload inPayload
  · intro _
    apply confined_bind (confined_save _ lengthByte lengthByte)
    intro _
    exact confined_bind (confined_save_field _ len len) fun _ => confined_pure _

end Blueman.MutatorRandom
