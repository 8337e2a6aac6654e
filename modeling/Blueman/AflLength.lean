import Blueman.HavocEngines
import Blueman.MutatorBounds

/-!
# The length after the AFL-style mutator

A length counts two header and three check bytes besides the payload.
`mutate_strategy` draws a payload length and adds the five; `mutate_pkt` then
compares the sum with the limit of the payload.
-/

namespace Blueman.AflLength

open LittleEndian ByteMachine BlePacket MutateStrategy Mutator MutatorAfl4 HavocEngines
open MutatorFullStack2Frame MutatorBounds

set_option autoImplicit false

/-- `mutate_strategy` with the length handed to the engine by its address. -/
def mutateStrategyAt : Program Rand Nat := do
  let maxPayloadLen ← loadField maxPayloadLenOffset
  let payloadLen ← remainder (← rand) ((clamp maxPayloadLen).toNat + 1)
  saveField lenOffset (UInt32.ofNat (payloadLen + 2 + 3))
  let lenTmp ← loadField lenOffset
  let left ← aflMutateHavocAt pktOffset lenTmp.toNat blePktMaxLen
  saveField lenOffset (UInt32.ofNat left)
  saveField mutatedOffset 1
  return 1

theorem mutate_strategy_at_eq : mutateStrategyAt = mutateStrategy := by
  unfold mutateStrategyAt mutateStrategy
  congr 1
  funext maxPayloadLen
  congr 1
  funext drawn
  congr 1
  funext payloadLen
  congr 1
  funext _
  congr 1
  funext lenTmp
  rw [afl_mutate_havoc_at_eq, bind_assoc]
  congr 1
  funext _
  rw [pure_bind, UInt32.ofNat_toNat]

def drawnPayloadLen (packet : BlePkt) (draws : Stream' Rand) : Nat :=
  draws.head.val % ((clamp packet.maxPayloadLen).toNat + 1)

theorem afl_mutate_havoc_fields (store : Store) (draws : Stream' Rand) (bytesLen offset : Nat)
    (metadata : offset + 4 ≤ pktOffset) :
    Returns (aflMutateHavoc pktOffset bytesLen) store draws fun _ after _ =>
      fieldOf after offset = fieldOf store offset := by
  have frame := @Faultless.returns _ _ store draws _ (afl_mutate_havoc_faultless pktOffset bytesLen) _ _
    (afl_mutate_havoc_confined pktOffset bytesLen store)
  apply frame.mono
  intro _ after _ within
  apply within_field_of within
  intro index inWord member
  have lower := (Set.mem_Ico.mp member).1
  omega

theorem mutate_strategy_len (packet : BlePkt) (beyond : Memory) (draws : Stream' Rand) :
    Returns mutateStrategy (place packet beyond) draws fun ret after _ => ret = 1 ∧
      fieldOf after lenOffset = UInt32.ofNat (drawnPayloadLen packet draws + 2 + 3) ∧
      fieldOf after maxPayloadLenOffset = packet.maxPayloadLen := by
  have placed := (place_field packet beyond).2.1
  apply returns_bind
  apply returns_load_field
  rw [placed]
  apply returns_bind
  apply returns_rand
  apply returns_bind
  apply returns_remainder (Nat.succ_pos _)
  apply returns_bind
  apply returns_save_word
  apply returns_bind
  apply returns_load_field
  apply returns_bind
  apply (afl_mutate_havoc_fields _ _ _ maxPayloadLenOffset (by decide)).mono
  intro _ havocked rest kept
  apply returns_bind
  apply returns_save_word
  apply returns_bind
  apply returns_save_word
  apply returns_pure
  refine ⟨rfl, ?_, ?_⟩
  · apply (field_of_put_field_other _ mutatedOffset lenOffset 1 (by decide)).trans
    apply (field_of_put_field havocked lenOffset _).trans
    exact field_of_put_field _ lenOffset _
  · apply (field_of_put_field_other _ mutatedOffset maxPayloadLenOffset 1 (by decide)).trans
    apply (field_of_put_field_other havocked lenOffset maxPayloadLenOffset _ (by decide)).trans
    apply kept.trans
    apply (field_of_put_field_other _ lenOffset maxPayloadLenOffset _ (by decide)).trans
    exact placed

theorem mutate_pkt_len (packet : BlePkt) (beyond : Memory) (idx : Nat) (draws : Stream' Rand) :
    Returns (mutatePkt idx) (place packet beyond) draws fun ret after _ => ret = 1 ∧
      (fieldOf after lenOffset).toNat =
        min (drawnPayloadLen packet draws + 5) packet.maxPayloadLen.toNat := by
  have drawn : drawnPayloadLen packet draws ≤ 255 := by
    have below := Nat.mod_lt draws.head.val (Nat.succ_pos (clamp packet.maxPayloadLen).toNat)
    have cut := (clamp_le packet.maxPayloadLen).1
    exact Nat.le_trans (Nat.le_of_lt_succ below) cut
  have value := drawn_len (drawnPayloadLen packet draws) drawn
  apply returns_bind
  apply (mutate_strategy_len packet beyond draws).mono
  intro ret middle rest facts
  obtain ⟨one, len, max⟩ := facts
  apply returns_bind
  apply returns_load_field
  apply returns_bind
  apply returns_load_field
  rw [field_of_touch, len, max]
  apply returns_bind
  apply returns_whenever
  · intro above
    have more := UInt32.lt_iff_toNat_lt.mp above
    apply returns_save_word
    apply returns_pure
    refine ⟨one, (congrArg UInt32.toNat (field_of_put_field _ lenOffset _)).trans ?_⟩
    omega
  · intro within
    have less := Nat.le_of_not_lt fun more => within (UInt32.lt_iff_toNat_lt.mpr more)
    apply returns_pure
    refine ⟨one, (congrArg UInt32.toNat len).trans ?_⟩
    omega

/-- A run of `mutate_pkt` that leaves a packet of this payload length. -/
def LeavesPayload (beyond : Memory) (idx : Nat) (packet : BlePkt) (draws : Stream' Rand)
    (payloadLen : Nat) : Prop :=
  ∃ ret after, runMutator (mutatePkt idx) beyond packet draws = .ok ret after ∧
    (recordOf after.store).len.toNat = payloadLen + 5

/-- The payload has the drawn length, cut at the limit of the packet. -/
def KeepsConvention (beyond : Memory) (idx : Nat) (packet : BlePkt) (draws : Stream' Rand) : Prop :=
  LeavesPayload beyond idx packet draws
    (min (drawnPayloadLen packet draws) packet.maxPayloadLen.toNat)

theorem leaves_payload_iff (packet : BlePkt) (beyond : Memory) (idx : Nat) (draws : Stream' Rand)
    (payloadLen : Nat) :
    LeavesPayload beyond idx packet draws payloadLen ↔
      min (drawnPayloadLen packet draws + 5) packet.maxPayloadLen.toNat = payloadLen + 5 := by
  have returned := mutate_pkt_len packet beyond idx draws
  constructor
  · intro leaves
    obtain ⟨ret, after, run, len⟩ := leaves
    exact (returned.returned run).2.symm.trans len
  · intro same
    obtain ⟨ret, store, rest, run, -, len⟩ := returned
    exact ⟨ret, ⟨store, rest⟩, run, len.trans same⟩

/-- The length follows the convention exactly when the drawn payload and the five
other bytes together are within the limit of the payload, and the payload lengths
that some stream produces are those that leave room for five bytes. -/
theorem afl_length_iff (packet : BlePkt) (beyond : Memory) (idx : Nat)
    (limit : packet.maxPayloadLen.toNat ≤ 250) :
    (∀ draws, KeepsConvention beyond idx packet draws ↔
      drawnPayloadLen packet draws + 5 ≤ packet.maxPayloadLen.toNat) ∧
    ∀ payloadLen, payloadLen ≤ packet.maxPayloadLen.toNat →
      ((∃ draws, LeavesPayload beyond idx packet draws payloadLen) ↔
        payloadLen + 5 ≤ packet.maxPayloadLen.toNat) := by
  have clamped : clamp packet.maxPayloadLen = packet.maxPayloadLen := clamp_of_le (by omega)
  constructor
  · intro draws
    have below := Nat.mod_lt draws.head.val (Nat.succ_pos (clamp packet.maxPayloadLen).toNat)
    have drawn : drawnPayloadLen packet draws ≤ packet.maxPayloadLen.toNat := by
      rw [← clamped]
      exact Nat.le_of_lt_succ below
    rw [KeepsConvention, leaves_payload_iff]
    omega
  · intro payloadLen inside
    constructor
    · intro produced
      obtain ⟨draws, leaves⟩ := produced
      have len := (leaves_payload_iff _ _ _ _ _).mp leaves
      omega
    · intro room
      have value : (drawnOf payloadLen).val = payloadLen := Nat.mod_eq_of_lt (by
        simp only [randMax]
        omega)
      have drawn : drawnPayloadLen packet (Stream'.const (drawnOf payloadLen)) = payloadLen := by
        unfold drawnPayloadLen
        rw [clamped]
        change (drawnOf payloadLen).val % _ = _
        rw [value]
        exact Nat.mod_eq_of_lt (Nat.lt_succ_of_le inside)
      refine ⟨Stream'.const (drawnOf payloadLen), ?_⟩
      rw [leaves_payload_iff, drawn]
      omega

theorem mtu_request_convention :
    KeepsConvention zeros 0 mtuRequest (Stream'.const (drawnOf 3)) :=
  ((afl_length_iff mtuRequest zeros 0 (by decide)).1 _).mpr (by decide)

/-- With the longest payload drawn, five bytes of it are cut off. -/
theorem longest_payload_cut : ¬∀ (packet : BlePkt) (beyond : Memory) (idx : Nat)
    (draws : Stream' Rand), packet.maxPayloadLen.toNat ≤ 250 →
      KeepsConvention beyond idx packet draws := by
  intro always
  have kept := always mtuRequest zeros 0 (Stream'.const (drawnOf 27)) (by decide)
  rw [KeepsConvention, leaves_payload_iff] at kept
  exact absurd kept (by decide)

end Blueman.AflLength
