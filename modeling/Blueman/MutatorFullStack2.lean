import Blueman.Mutator
import Blueman.PacketSelection

/-!
# The field-aware mutator

`mutator_full_stack2.c`, function by function. `ATT_mutator` and `SM_mutator`
hand the record itself to macros that expect `pkt->pkt`, so the bytes they
write are bytes of the record's fields; the other three stay in `pkt->pkt`.
-/

namespace Blueman.MutatorFullStack2

open LittleEndian ByteMachine BlePacket MutateStrategy Mutator PacketSelection

set_option autoImplicit false

def attOpMaps : List UInt8 :=
  [0x01, 0x02, 0x03, 0x04, 0x05, 0x06, 0x07,
    0x08, 0x09, 0x0a, 0x0b, 0x0c, 0x0d, 0x0e,
    0x0f, 0x10, 0x11, 0x12, 0x13, 0x05, 0x16,
    0x17, 0x18, 0x19, 0x20, 0x21, 0x22, 0x23,
    0x24, 0x1b, 0x1d, 0x1e, 0xd2, 0xd3, 0x1a]

/-- `pkt->len - 2 - 3`, stored in an `int32_t`. -/
def llPayloadLen (len : UInt32) : Int := toInt32 (len - 2 - 3)

def attMutator : Program Rand Nat := do
  let len ← loadField lenOffset
  let attParamsLen := llPayloadLen len - l2capHeaderLen - attOpcodeLen
  if attParamsLen ≤ 0 then return 1
  else do
    -- the macros are applied to the record, not to `pkt->pkt`
    let attOpcode := getAttOpcode packetAddress
    let attParams := getAttParams packetAddress
    let choice ← rand
    whenever (choice % 100 ≥ 30) do
      let opcode ← lookup attOpMaps ((← rand) % attOpMaps.length)
      save attOpcode opcode
    mutateHavoc attParams attParamsLen.toNat blePktMaxLen
    return 1

def smMutator : Program Rand Nat := do
  let len ← loadField lenOffset
  let smDataLen := llPayloadLen len - l2capHeaderLen - smCodeLen
  if smDataLen ≤ 0 then return 1
  else do
    let smCode := getSmCode packetAddress
    let smData := getSmData packetAddress
    let choice ← rand
    whenever (choice % 100 < 70) do
      let code ← rand
      save smCode (UInt8.ofNat (code % 0xf))
    mutateHavoc smData smDataLen.toNat blePktMaxLen
    return 1

def cidMaps : List UInt16 := [0x4, 0x5, 0x6, 0x25, 0x27, 0x40, 0x41]

def l2capMutator : Program Rand Nat := do
  let len ← loadField lenOffset
  let l2capHeader := getL2capHeader pktOffset
  let payloadLen := llPayloadLen len - l2capHeaderLen
  let _cid ← loadWord 2 (l2capHeader + 2)
  let l2capPayload := getL2capPayload pktOffset
  if payloadLen ≤ 0 then return 0
  else do
    let shorten ← rand
    let newPayloadLen ← (if shorten % 100 < 20 then do
        remainder (← rand) (payloadLen.toNat + 1)
      else pure payloadLen.toNat : Program Rand Nat)
    if newPayloadLen = 0 then return 1
    else do
      let redirect ← rand
      whenever (redirect % 100 < 20) do
        let cid ← lookup cidMaps ((← rand) % cidMaps.length)
        saveWord 2 (l2capHeader + 2) cid.toBitVec
      mutateHavoc l2capPayload newPayloadLen blePktMaxLen
      return 1

def llAdvertisingMutator : Program Rand Nat := do
  let len ← loadField lenOffset
  let payloadLen := llPayloadLen len
  if payloadLen ≤ 0 then return 0
  else do
    let choice ← rand
    whenever (choice % 100 < 10) (mutateRandBits (getLlAdvHeader pktOffset) 2 4 4)
    mutateHavoc (getLlAdvPayload pktOffset) payloadLen.toNat blePktMaxLen
    return 1

def llDataMutator : Program Rand Nat := do
  let len ← loadField lenOffset
  let payloadLen := llPayloadLen len
  if payloadLen ≤ 0 then return 0
  else do
    let choice ← rand
    whenever (choice % 100 < 30) do
      mutateRandBits (getLlDataHeader pktOffset) 2 6 2
      mutateRandBits (getLlDataHeader pktOffset) 2 0 4
    mutateHavoc (getLlDataPayload pktOffset) payloadLen.toNat blePktMaxLen
    return 1

inductive LayerMutator
  | llData
  | l2cap
  | att
  | sm
  | llAdvertising
deriving DecidableEq, Repr

/-- The `switch` on the layer of a data packet; `r` is the draw below 100. -/
def selectLayerMutator (topLayerType : FuzzLayer) (r : Nat) : Option LayerMutator :=
  match topLayerType with
  | .ll => if r < 25 then some .llData else none
  | .l2cap => if r < 25 then some .llData else if r < 50 then some .l2cap else none
  | .att =>
      if r < 25 then some .llData else if r < 50 then some .l2cap
      else if r < 75 then some .att else none
  | .sm =>
      if r < 25 then some .llData else if r < 50 then some .l2cap
      else if r < 75 then some .sm else none

/-- The length re-draw at the head of `mutate_strategy`. -/
def redrawLen : Program Rand Unit := do
  let choice ← rand
  whenever (choice % 100 < 50) do
    let maxPayloadLen ← loadField maxPayloadLenOffset
    let payloadLen ← remainder (← rand) ((clamp maxPayloadLen).toNat + 1)
    saveField lenOffset (UInt32.ofNat (payloadLen + 2 + 3))

def chooseLayerMutator : Program Rand (Option LayerMutator) := do
  if ← isDataPacket then do
    let topLayerType ← getUpperLayerTypeForZephyr
    let r := (← rand) % 100
    return selectLayerMutator topLayerType r
  else return some .llAdvertising

def runLayerMutator : Option LayerMutator → Program Rand Nat
  | none => pure 0
  | some .llData => llDataMutator
  | some .l2cap => l2capMutator
  | some .att => attMutator
  | some .sm => smMutator
  | some .llAdvertising => llAdvertisingMutator

/-- Both branches of the source end by rewriting the length byte of the link
layer header, which lies at the same address for data and advertising. -/
def rewriteHeaderLen : Program Rand Unit := do
  let len ← loadField lenOffset
  save (getLlDataHeader pktOffset + 1) (len - 2 - 3).toUInt8

def markMutated (ret : Nat) (oldPayloadLen : UInt8) : Program Rand Unit := do
  let len ← loadField lenOffset
  whenever (ret ≠ 0 ∨ oldPayloadLen.toUInt32 ≠ len) (saveField mutatedOffset 1)

/-- `mutate_strategy`, given what runs the layer mutator it has chosen. -/
def mutateStrategyWith (run : Option LayerMutator → Program Rand Nat) : Program Rand Nat := do
  redrawLen
  let len ← loadField lenOffset
  let oldPayloadLen := len.toUInt8
  let chosen ← chooseLayerMutator
  let ret ← run chosen
  rewriteHeaderLen
  markMutated ret oldPayloadLen
  return ret

def mutatePktWith (run : Option LayerMutator → Program Rand Nat) (config : PktselConfig)
    (idx : Nat) : Program Rand Nat := do
  let len ← loadField lenOffset
  if len = 2 + 3 then return 0
  else do
    let selected ← shouldMutatePacket config idx
    if selected then mutateStrategyWith run else return 0

def mutateStrategy : Program Rand Nat := mutateStrategyWith runLayerMutator

def mutatePkt (config : PktselConfig) (idx : Nat) : Program Rand Nat :=
  mutatePktWith runLayerMutator config idx

end Blueman.MutatorFullStack2
