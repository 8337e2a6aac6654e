import Blueman.BlePacket

/-!
# The hook in the simulated radio

`hijack_packet_recorder` copies every received packet into a record, sends it
to the fuzzer, waits for the acknowledgement and lets it overwrite the receive
buffer. `fuzz_state` is `RECV_PACKET` from its first test on, so its error
branch is dead; `count` is a local, so every record has `sid` 0.
-/

namespace Blueman.HijackHook

open LittleEndian BlePacket

set_option autoImplicit false

/-- What the hook reads from the simulator around it; `maxLen` is the result of
`nhwra_get_MAXLEN`. -/
structure Radio where
  rxAddress : UInt32
  txAddress : UInt32
  maxLen : UInt32

/-- The byte count of the copy into `pkt.pkt`. -/
def hijackCopyCount (lenOfPayload : UInt64) : Nat := (2 + lenOfPayload).toNat

/-- The record of a received packet. What `stack` holds in `pkt.pkt` beyond the
copied bytes travels along. -/
def hijackRecord (radio : Radio) (stack : BlePkt) (lenOfPayload : UInt64) (buf : Memory)
    (rx : UInt32) : BlePkt where
  sid := 0
  mutated := 0
  deviceId := rx
  address := if rx ≠ 0 then radio.rxAddress else radio.txAddress
  len := (lenOfPayload + 2 + 3).toUInt32
  maxPayloadLen := radio.maxLen
  pkt := memcpyPkt stack.pkt (Vector.ofFn fun index => buf index.val) (hijackCopyCount lenOfPayload)

/-- `payload_length` is a `uint8_t`, `max_length` is not. -/
def hijackPayloadLength (maxLength len : UInt32) : UInt8 :=
  let payloadLength := (len - 5).toUInt8
  if maxLength > payloadLength.toUInt32 then payloadLength else maxLength.toUInt8

inductive HookOutcome
  | resumes (buf : Memory)
  | exits

def hijackApply (maxLength : UInt32) (buf : Memory) (ack : BlePkt) : HookOutcome :=
  if ack.mutated = 1 then
    let payloadLength := hijackPayloadLength maxLength ack.len
    .resumes (copyBytes (Function.update buf 0 payloadLength) 2 (ack.pkt.getD · 0)
      payloadLength.toNat)
  else if ack.mutated = 2 then .exits
  else .resumes buf

/-- A call of the hook: it sends a record and goes on with the acknowledgement,
or it has found the packet too long and loops forever. -/
inductive HookCall
  | spins
  | exchanges (sent : BlePkt) (resume : BlePkt → HookOutcome)

def hijackPacketRecorder (radio : Radio) (stack : BlePkt) (lenOfPayload : UInt64) (buf : Memory)
    (rx : UInt32) : HookCall :=
  if lenOfPayload < 255 then
    .exchanges (hijackRecord radio stack lenOfPayload buf rx) (hijackApply radio.maxLen buf)
  else .spins

/-- The receive buffer with which the target goes on after an acknowledgement. -/
def HookCall.bufAfter (call : HookCall) (ack : BlePkt) : Option Memory :=
  match call with
  | .spins => none
  | .exchanges _ resume =>
      match resume ack with
      | .resumes buf => some buf
      | .exits => none

theorem hijack_record_len (radio : Radio) (stack : BlePkt) (lenOfPayload : UInt64) (buf : Memory)
    (rx : UInt32) (accepted : lenOfPayload.toNat < 255) :
    (hijackRecord radio stack lenOfPayload buf rx).len.toNat = lenOfPayload.toNat + 5 := by
  have two : (2 : UInt64).toNat = 2 := rfl
  have three : (3 : UInt64).toNat = 3 := rfl
  change (lenOfPayload + 2 + 3).toUInt32.toNat = _
  rw [UInt64.toNat_toUInt32, UInt64.toNat_add, UInt64.toNat_add]
  omega

theorem hijack_copy_count (lenOfPayload : UInt64) (accepted : lenOfPayload.toNat < 255) :
    hijackCopyCount lenOfPayload = 2 + lenOfPayload.toNat := by
  have two : (2 : UInt64).toNat = 2 := rfl
  rw [hijackCopyCount, UInt64.toNat_add]
  omega

theorem hijack_record_pkt (radio : Radio) (stack : BlePkt) (lenOfPayload : UInt64) (buf : Memory)
    (rx : UInt32) (index : Nat) (accepted : lenOfPayload.toNat < 253)
    (copied : index < 2 + lenOfPayload.toNat) :
    (hijackRecord radio stack lenOfPayload buf rx).pkt.getD index 0 = buf index := by
  have inside : index < blePktMaxLen := by
    simp only [blePktMaxLen]
    omega
  have received : index < hijackCopyCount lenOfPayload := by
    rwa [hijack_copy_count lenOfPayload (by omega)]
  rw [pkt_get_d _ index inside]
  exact (memcpy_pkt_get _ _ _ index inside).trans
    ((if_pos received).trans (Vector.getElem_ofFn inside))

/-- The payload of an acknowledged packet: its length less two header and three
checksum bytes, cut to what the receiver can hold. -/
def payloadLengthOf (maxLength len : UInt32) : Nat := min (len.toNat - 5) maxLength.toNat

theorem hijack_payload_length (maxLength : UInt32) {len : UInt32} (lower : 5 ≤ len.toNat)
    (upper : len.toNat ≤ 255) :
    (hijackPayloadLength maxLength len).toNat = payloadLengthOf maxLength len := by
  have five : (5 : UInt32).toNat = 5 := rfl
  have payload : (len - 5).toUInt8.toNat = len.toNat - 5 := by
    rw [UInt32.toNat_toUInt8, UInt32.toNat_sub]
    omega
  unfold hijackPayloadLength payloadLengthOf
  dsimp only
  split_ifs with shorter
  · have below : (len - 5).toUInt8.toNat < maxLength.toNat := UInt32.lt_iff_toNat_lt.mp shorter
    omega
  · have above : ¬(len - 5).toUInt8.toNat < maxLength.toNat := fun below =>
      shorter (UInt32.lt_iff_toNat_lt.mpr below)
    rw [UInt32.toNat_toUInt8]
    omega

/-- The packet the target goes on with is the acknowledged one, header included. -/
def Delivered (maxLength : UInt32) (ack : BlePkt) (buf : Memory) : Prop :=
  ∀ position, position < 2 + payloadLengthOf maxLength ack.len →
    buf position = ack.pkt.getD position 0

/-- Every even byte is the payload length and every odd byte is `second`. -/
def Interleaved (payloadLen : Nat) (second : UInt8) (bytes : Memory) : Prop :=
  ∀ position, position < 2 + payloadLen →
    bytes position = if position % 2 = 0 then UInt8.ofNat payloadLen else second

/-- Bytes copied two places behind where they belong, with only the first byte
written before them, are right exactly when they repeat with period two. -/
theorem shifted_copy_iff {payloadLen : Nat} {after bytes : Memory}
    (first : after 0 = UInt8.ofNat payloadLen)
    (copied : ∀ index, index < payloadLen → after (2 + index) = bytes index) :
    (∀ position, position < 2 + payloadLen → after position = bytes position) ↔
      Interleaved payloadLen (after 1) bytes := by
  constructor
  · intro same position
    induction position using Nat.twoStepInduction with
    | zero => exact fun inside => (same 0 inside).symm.trans first
    | one => exact fun inside => (same 1 inside).symm
    | more position induction _ =>
        intro inside
        rw [← same (position + 2) inside, Nat.add_comm position 2, copied position (by omega),
          induction (by omega), Nat.add_mod_left]
  · intro interleaved position
    match position with
    | 0 => exact fun inside => first.trans (interleaved 0 inside).symm
    | 1 => exact fun inside => (interleaved 1 inside).symm
    | position + 2 =>
        intro inside
        rw [interleaved (position + 2) inside, Nat.add_comm position 2,
          copied position (by omega), interleaved position (by omega), Nat.add_mod_left]

/-- The hook writes the payload length and the packet behind the header, and
keeps the header's second byte and all that follows. -/
theorem hijack_buf_after (radio : Radio) (stack : BlePkt) (lenOfPayload : UInt64) (buf : Memory)
    (rx : UInt32) (ack : BlePkt) (accepted : lenOfPayload.toNat < 255) (mutated : ack.mutated = 1)
    (lower : 5 ≤ ack.len.toNat) (upper : ack.len.toNat ≤ 255) :
    ∃ after, (hijackPacketRecorder radio stack lenOfPayload buf rx).bufAfter ack = some after ∧
      after 0 = UInt8.ofNat (payloadLengthOf radio.maxLen ack.len) ∧ after 1 = buf 1 ∧
      (∀ index, index < payloadLengthOf radio.maxLen ack.len →
        after (2 + index) = ack.pkt.getD index 0) ∧
      ∀ position, 2 + payloadLengthOf radio.maxLen ack.len ≤ position →
        after position = buf position := by
  have guard : lenOfPayload < 255 := UInt64.lt_iff_toNat_lt.mpr accepted
  have count := hijack_payload_length radio.maxLen lower upper
  refine ⟨copyBytes (Function.update buf 0 (hijackPayloadLength radio.maxLen ack.len)) 2
    (ack.pkt.getD · 0) (payloadLengthOf radio.maxLen ack.len), ?_, ?_, ?_, ?_, ?_⟩
  · rw [hijackPacketRecorder, if_pos guard]
    simp only [HookCall.bufAfter, hijackApply, if_pos mutated, count]
  · rw [copy_bytes_outside _ _ _ _ _ (.inl (by omega)), Function.update_self, ← count,
      UInt8.ofNat_toNat]
  · rw [copy_bytes_outside _ _ _ _ _ (.inl (by omega)), Function.update_of_ne (by omega)]
  · intro index inside
    exact copy_bytes_inside _ _ _ _ _ inside
  · intro position beyond
    rw [copy_bytes_outside _ _ _ _ _ (.inr beyond), Function.update_of_ne (by omega)]

/-- A mutated acknowledgement is delivered exactly when it repeats the payload
length and the old second header byte; in particular the recorded packet sent
back leaves the buffer as it was only when the buffer itself is so. -/
theorem hijack_delivers_iff (radio : Radio) (stack : BlePkt) (lenOfPayload : UInt64)
    (buf : Memory) (rx : UInt32) (ack : BlePkt) (short : lenOfPayload.toNat < 250)
    (fits : lenOfPayload.toNat ≤ radio.maxLen.toNat) (mutated : ack.mutated = 1)
    (lower : 5 ≤ ack.len.toNat) (upper : ack.len.toNat ≤ 255) :
    ((∃ after, (hijackPacketRecorder radio stack lenOfPayload buf rx).bufAfter ack = some after ∧
        Delivered radio.maxLen ack after) ↔
      Interleaved (payloadLengthOf radio.maxLen ack.len) (buf 1) (ack.pkt.getD · 0)) ∧
    ((hijackPacketRecorder radio stack lenOfPayload buf rx).bufAfter
        { hijackRecord radio stack lenOfPayload buf rx with mutated := 1 } = some buf ↔
      Interleaved lenOfPayload.toNat (buf 1) buf) := by
  constructor
  · obtain ⟨after, resumed, first, second, copied, _⟩ :=
      hijack_buf_after radio stack lenOfPayload buf rx ack (by omega) mutated lower upper
    rw [resumed, ← second]
    constructor
    · rintro ⟨buffer, same, delivered⟩
      obtain rfl := Option.some.inj same
      exact (shifted_copy_iff first copied).mp delivered
    · intro interleaved
      exact ⟨after, rfl, (shifted_copy_iff first copied).mpr interleaved⟩
  · have echoLen := hijack_record_len radio stack lenOfPayload buf rx (by omega)
    have echoPayload : payloadLengthOf radio.maxLen (hijackRecord radio stack lenOfPayload buf rx).len
        = lenOfPayload.toNat := by
      unfold payloadLengthOf
      omega
    obtain ⟨after, resumed, first, second, copied, beyond⟩ :=
      hijack_buf_after radio stack lenOfPayload buf rx
        { hijackRecord radio stack lenOfPayload buf rx with mutated := 1 } (by omega) rfl
        (by rw [echoLen]; omega) (by rw [echoLen]; omega)
    rw [echoPayload] at first copied beyond
    have shifted (index : Nat) (inside : index < lenOfPayload.toNat) :
        after (2 + index) = buf index := by
      rw [copied index inside]
      exact hijack_record_pkt radio stack lenOfPayload buf rx index (by omega) (by omega)
    rw [resumed, ← second, ← shifted_copy_iff first shifted]
    constructor
    · intro same position _
      rw [Option.some.inj same]
    · intro same
      congr 1
      funext position
      rcases Nat.lt_or_ge position (2 + lenOfPayload.toNat) with inside | outside
      · exact same position inside
      · exact beyond position outside

def linkRadio : Radio := ⟨0x50655D7A, 0x50655D7A, 27⟩

def clearedStack : BlePkt := BlePkt.ofMemory (fun _ => 0) 0

def dataPdu : Memory := fun index => ([0x02, 0x03, 0x0a, 0x0b, 0x0c] : List UInt8).getD index 0

def dataPduEcho : BlePkt := { hijackRecord linkRadio clearedStack 3 dataPdu 1 with mutated := 1 }

theorem repeated_byte_delivered :
    (hijackPacketRecorder linkRadio clearedStack 1 (fun _ => 1) 1).bufAfter
      { hijackRecord linkRadio clearedStack 1 (fun _ => 1) 1 with mutated := 1 } =
        some fun _ => 1 :=
  (hijack_delivers_iff linkRadio clearedStack 1 (fun _ => 1) 1 dataPduEcho (by decide) (by decide)
    rfl (by decide) (by decide)).2.mpr fun _ _ => (ite_self _).symm

theorem data_pdu_echo_shifted :
    (hijackPacketRecorder linkRadio clearedStack 3 dataPdu 1).bufAfter dataPduEcho ≠ some dataPdu ∧
      ¬∃ after, (hijackPacketRecorder linkRadio clearedStack 3 dataPdu 1).bufAfter dataPduEcho =
        some after ∧ Delivered linkRadio.maxLen dataPduEcho after := by
  have written : ((hijackPacketRecorder linkRadio clearedStack 3 dataPdu 1).bufAfter
      dataPduEcho).map (· 0) = some 3 := by decide
  constructor
  · intro same
    rw [same] at written
    exact absurd written (by decide)
  · rintro ⟨after, same, delivered⟩
    rw [same] at written
    have header : after 0 = dataPdu 0 := (delivered 0 (by decide)).trans
      (hijack_record_pkt linkRadio clearedStack 3 dataPdu 1 0 (by decide) (by decide))
    have length : after 0 = 3 := Option.some.inj written
    rw [header] at length
    exact absurd length (by decide)

/-- The copies on the path of a packet the hook accepts: its own, and that of a
later replay of the record onto any live packet. -/
def CopiesFit (radio : Radio) (stack : BlePkt) (lenOfPayload : UInt64) (buf : Memory)
    (rx : UInt32) : Prop :=
  hijackCopyCount lenOfPayload ≤ blePktMaxLen ∧
    ∀ live replayed : BlePkt, replayed.mutated = 1 →
      replayed.len = (hijackRecord radio stack lenOfPayload buf rx).len →
      (copyBlePktLen live replayed).toNat ≤ blePktMaxLen

/-- The hook's guard lets payloads of 251 to 254 bytes pass, and the last of
them already overruns the hook's own copy. -/
theorem copies_fit_iff (radio : Radio) (stack : BlePkt) (lenOfPayload : UInt64) (buf : Memory)
    (rx : UInt32) (accepted : lenOfPayload.toNat < 255) :
    CopiesFit radio stack lenOfPayload buf rx ↔ lenOfPayload.toNat ≤ 250 := by
  have count := hijack_copy_count lenOfPayload accepted
  have recordLen := hijack_record_len radio stack lenOfPayload buf rx accepted
  have maxLen : blePktMaxLen = 255 := rfl
  constructor
  · rintro ⟨_, replay⟩
    by_contra long
    have copied := replay { clearedStack with maxPayloadLen := 255 }
      { hijackRecord radio stack lenOfPayload buf rx with mutated := 1 } rfl rfl
    change (if (hijackRecord radio stack lenOfPayload buf rx).len > 255 + 5 then 255 + 5
      else (hijackRecord radio stack lenOfPayload buf rx).len).toNat ≤ 255 at copied
    split_ifs at copied with limit
    · exact absurd copied (by decide)
    · omega
  · intro short
    refine ⟨by omega, fun live replayed _ sameLen => ?_⟩
    rw [← sameLen] at recordLen
    unfold copyBlePktLen
    split_ifs with limit
    · have below : (live.maxPayloadLen + 5).toNat < replayed.len.toNat :=
        UInt32.lt_iff_toNat_lt.mp limit
      omega
    · omega

theorem longest_fitting_payload : CopiesFit linkRadio clearedStack 250 dataPdu 1 :=
  (copies_fit_iff linkRadio clearedStack 250 dataPdu 1 (by decide)).mpr (by decide)

theorem accepted_payload_overruns :
    (hijackPacketRecorder linkRadio clearedStack 254 dataPdu 1) ≠ .spins ∧
      hijackCopyCount 254 = 256 ∧ ¬CopiesFit linkRadio clearedStack 254 dataPdu 1 := by
  refine ⟨fun spins => ?_, rfl, fun fits => absurd fits.1 (by decide)⟩
  rw [hijackPacketRecorder, if_pos (by decide)] at spins
  cases spins

end Blueman.HijackHook
