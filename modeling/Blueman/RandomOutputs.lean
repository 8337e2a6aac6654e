import Blueman.MutatorFullStack2Frame
import Blueman.MutatorRandom

/-!
# What the random mutator can make of a packet

A new length, any first byte, and at most a third of the payload of that length: over
all draws the mutator leaves exactly such packets, and the packet as it was.
-/

namespace Blueman.RandomOutputs

open LittleEndian ByteMachine BlePacket MutateStrategy Mutator MutatorRandom
open MutatorFullStack2Frame

set_option autoImplicit false

/-- At most `limit` bytes of the range differ, and no byte outside of it. -/
def SparselyChanged (first length limit : Nat) (before after : Memory) : Prop :=
  ∃ positions : List Nat, positions.length ≤ limit ∧
    (∀ position ∈ positions, position ∈ region first length) ∧
    ∀ position, position ∉ positions → after position = before position

section

variable {payload payloadLen : Nat} {store : Store}

theorem random_byte_sparse {before : Memory} {rounds : Nat}
    (sparse : SparselyChanged payload payloadLen rounds before store.memory) :
    Ensures (mutateRandomByte payload payloadLen) store
      (fun _ after => SparselyChanged payload payloadLen (rounds + 1) before after.memory)
      fun _ _ => True := by
  obtain ⟨positions, few, inside, others⟩ := sparse
  apply ensures_bind
  apply ensures_rand
  intro drawn _
  apply ensures_bind
  apply ensures_remainder
  · exact fun _ => trivial
  · intro some
    apply ensures_bind
    apply ensures_rand
    intro byte _
    apply ensures_save
    have below := Nat.mod_lt drawn some
    have index := Nat.mod_le (drawn % payloadLen) 256
    refine ⟨(payload + drawn % payloadLen % 256) :: positions, Nat.succ_le_succ few, ?_, ?_⟩
    · intro position member
      cases List.mem_cons.mp member with
      | inl here => exact Set.mem_Ico.mpr (by omega)
      | inr earlier => exact inside position earlier
    · intro position apart
      obtain ⟨different, unchanged⟩ := not_or.mp (fun member => apart (List.mem_cons.mpr member))
      exact (Function.update_of_ne different _ _).trans (others position unchanged)

theorem rounds_sparse (rounds : Nat) :
    Ensures (forRange (fun _ => mutateRandomByte payload payloadLen) 0 rounds) store
      (fun _ after => SparselyChanged payload payloadLen rounds store.memory after.memory)
      fun _ _ => True := by
  have loop := @ensures_for_range Rand store (fun _ _ => True)
    (fun _ => mutateRandomByte payload payloadLen) 0 rounds
    (fun index after => SparselyChanged payload payloadLen index store.memory after.memory)
    (fun _ _ _ _ sparse => random_byte_sparse sparse)
    ⟨[], Nat.le_refl _, fun _ member => absurd member List.not_mem_nil, fun _ _ => rfl⟩
  rwa [Nat.zero_add] at loop

/-- Enough rounds make any few changes; the ones that are left over write a byte as it
shall be. -/
theorem rounds_possibly {rounds : Nat} {memory : Memory} (some : 0 < payloadLen)
    (narrow : payloadLen ≤ 255)
    (sparse : SparselyChanged payload payloadLen rounds store.memory memory) :
    Possibly (forRange (fun _ => mutateRandomByte payload payloadLen) 0 rounds) store
      fun _ after => after.memory = memory := by
  obtain ⟨positions, few, inside, others⟩ := sparse
  have loop := @possibly_for_range Rand store
    (fun _ => mutateRandomByte payload payloadLen) 0 rounds
    (fun index after =>
      ∀ position, position ∉ positions.drop index → after.memory position = memory position)
    (fun index before _ _ done => ?_) (fun position apart => (others position apart).symm)
  · apply loop.mono
    intro _ after done
    funext position
    apply done position
    rw [Nat.zero_add, List.drop_eq_nil_of_le few]
    exact List.not_mem_nil
  · -- the byte of this round, or the first one when all are done
    have target : ∃ offset, offset < payloadLen ∧
        ∀ position, position ∉ positions.drop (index + 1) →
          position ≠ payload + offset → position ∉ positions.drop index := by
      by_cases more : index < positions.length
      · have here := inside positions[index] (List.getElem_mem more)
        obtain ⟨lower, upper⟩ := Set.mem_Ico.mp here
        refine ⟨positions[index] - payload, by omega, ?_⟩
        intro position later different member
        rw [List.drop_eq_getElem_cons more] at member
        cases List.mem_cons.mp member with
        | inl same => omega
        | inr remaining => exact later remaining
      · refine ⟨0, some, fun position _ _ member => ?_⟩
        rw [List.drop_eq_nil_of_le (Nat.not_lt.mp more)] at member
        exact absurd member List.not_mem_nil
    obtain ⟨offset, below, remaining⟩ := target
    apply random_byte_possibly offset (memory (payload + offset)) below (by omega)
    intro position later
    by_cases here : position = payload + offset
    · rw [here]
      exact Function.update_self _ _ _
    · exact (Function.update_of_ne here _ _).trans (done position (remaining position later here))

end

/-- The length byte of the header and `len`, set for a payload of the length. -/
def lengthWritten (payloadLen : Nat) (memory : Memory) : Memory :=
  writeWord 4 (Function.update memory (pktOffset + 1) (UInt8.ofNat payloadLen))
    (packetAddress + lenOffset) (UInt32.ofNat (payloadLen + 2 + 3)).toBitVec

def stamped (payloadLen : Nat) (memory : Memory) : Memory :=
  writeWord 4 (lengthWritten payloadLen memory) (packetAddress + mutatedOffset)
    (1 : UInt32).toBitVec

/-- Any first byte, and at most a third of a payload of the length changed. -/
def Randomized (payloadLen : Nat) (before after : Memory) : Prop :=
  ∃ header, SparselyChanged (getLlDataPayload pktOffset) payloadLen ((payloadLen + 2) / 3)
    (Function.update before pktOffset header) after

/-- The payload lengths that can be drawn: up to the limit, and for advertising also the
length as it is. -/
def Drawable (store : Store) (payloadLen : Nat) : Prop :=
  0 < payloadLen ∧ payloadLen ≤ (clamp (fieldOf store maxPayloadLenOffset)).toNat ∨
    fieldOf store addressOffset = advertisingAddress ∧
      payloadLen = (fieldOf store lenOffset - 2 - 3).toNat

/-- What a call can leave: the packet as it was, or one with a payload of a length that
can be drawn. -/
def RandomReached (store : Store) (memory : Memory) : Prop :=
  memory = store.memory ∨ 5 < fieldOf store lenOffset ∧ ∃ payloadLen, Drawable store payloadLen ∧
    ∃ payload, Randomized payloadLen store.memory payload ∧ memory = stamped payloadLen payload

section

variable {store : Store} {payloadLen : Nat}

abbrev randomize (payloadLen : Nat) : Program Rand Nat := do
  mutateRandomByte (getLlDataHeader pktOffset) 1
  mutatePayload (getLlDataHeader pktOffset) (getLlDataPayload pktOffset) payloadLen

theorem randomize_ensures (some : 0 < payloadLen) :
    Ensures (randomize payloadLen) store
      (fun value after => value = payloadLen ∧ ∃ payload,
        Randomized payloadLen store.memory payload ∧
          after.memory = lengthWritten payloadLen payload)
      fun _ _ => True := by
  apply ensures_bind
  apply ensures_bind
  apply ensures_rand
  intro drawn _
  apply ensures_bind
  apply ensures_remainder
  · exact fun _ => trivial
  · intro _
    rw [Nat.mod_one]
    apply ensures_bind
    apply ensures_rand
    intro header _
    apply ensures_save
    apply ensures_bind
    apply ensures_whenever
    · intro _
      apply ensures_bind
      apply ensures_rand
      intro rounds _
      apply ensures_bind
      apply ensures_remainder
      · exact fun _ => trivial
      · intro _
        have below := Nat.mod_lt rounds some
        apply Ensures.mono (rounds_sparse ((rounds % payloadLen + 3) / 3))
        · intro _ middle ⟨positions, few, inside, others⟩
          apply ensures_bind
          apply ensures_save
          apply ensures_bind
          apply ensures_save_word
          apply ensures_pure
          refine ⟨rfl, middle.memory, ⟨UInt8.ofNat header, positions, ?_, inside, others⟩, rfl⟩
          omega
        · exact fun _ _ _ => trivial
    · exact fun none => absurd (Nat.pos_iff_ne_zero.mp some) none

theorem randomize_possibly {payload : Memory} (some : 0 < payloadLen) (narrow : payloadLen ≤ 255)
    (randomized : Randomized payloadLen store.memory payload) :
    Possibly (randomize payloadLen) store fun value after =>
      value = payloadLen ∧ after.memory = lengthWritten payloadLen payload := by
  obtain ⟨header, sparse⟩ := randomized
  have drawable : payloadLen - 1 ≤ randMax := by
    have large : 255 ≤ randMax := by decide
    omega
  have rounds : ((payloadLen - 1) % payloadLen + 3) / 3 = (payloadLen + 2) / 3 := by
    rw [Nat.mod_eq_of_lt (by omega)]
    congr 1
    omega
  apply possibly_bind
  apply random_byte_possibly 0 header (by decide) (by decide)
  apply possibly_bind
  apply possibly_whenever
  · intro _
    apply possibly_bind
    apply possibly_rand (payloadLen - 1) drawable
    apply possibly_bind
    apply possibly_remainder some
    dsimp only
    rw [rounds]
    apply (rounds_possibly some narrow sparse).mono
    intro _ middle done
    apply possibly_bind
    apply possibly_save
    apply possibly_bind
    apply possibly_save_word
    apply possibly_pure
    rw [← done]
    exact ⟨rfl, rfl⟩
  · exact fun none => absurd (Nat.pos_iff_ne_zero.mp some) none

end

def Mutated (store : Store) (value : Nat) (memory : Memory) : Prop :=
  value = 0 ∧ memory = store.memory ∨ 0 < value ∧ 5 < fieldOf store lenOffset ∧
    Drawable store value ∧ ∃ payload, Randomized value store.memory payload ∧
      memory = lengthWritten value payload

section

variable {store : Store}

theorem mutated_congr {middle : Store} (same : middle.memory = store.memory) {value : Nat}
    {memory : Memory} (mutated : Mutated middle value memory) : Mutated store value memory := by
  have fields (offset : Nat) : fieldOf middle offset = fieldOf store offset :=
    field_of_congr same offset
  unfold Mutated Drawable at mutated ⊢
  rwa [same, fields, fields, fields] at mutated

theorem ll_data_ensures (layer : FuzzLayer) :
    Ensures (llDataMutator layer) store
      (fun value after => Mutated store value after.memory) fun _ _ => True := by
  apply ensures_bind
  apply ensures_load_field
  apply ensures_if
  · exact fun _ => ensures_pure (.inl ⟨rfl, rfl⟩)
  · intro long
    apply ensures_bind
    apply ensures_load_field
    apply ensures_bind
    apply ensures_rand
    intro drawn _
    apply ensures_bind
    apply ensures_remainder
    · exact fun _ => trivial
    · intro some
      have below := Nat.mod_lt drawn some
      apply (randomize_ensures (Nat.succ_pos _)).mono
      · intro value after ⟨same, written⟩
        rw [same]
        exact .inr ⟨Nat.succ_pos _, UInt32.not_le.mp long, .inl ⟨Nat.succ_pos _, below⟩, written⟩
      · exact fun _ _ _ => trivial

theorem long_payload {len : UInt32} (long : 5 < len) :
    (len - 2 - 3).toNat = len.toNat - 5 ∧ 5 < len.toNat := by
  have large : 5 < len.toNat := UInt32.lt_iff_toNat_lt.mp long
  have bound := len.toNat_lt
  refine ⟨?_, large⟩
  rw [UInt32.toNat_sub, UInt32.toNat_sub]
  change (2 ^ 32 - 3 + (2 ^ 32 - 2 + len.toNat) % 2 ^ 32) % 2 ^ 32 = len.toNat - 5
  omega

theorem ll_advertising_ensures
    (advertising : fieldOf store addressOffset = advertisingAddress) :
    Ensures llAdvertisingMutator store
      (fun value after => Mutated store value after.memory) fun _ _ => True := by
  apply ensures_bind
  apply ensures_load_field
  apply ensures_if
  · exact fun _ => ensures_pure (.inl ⟨rfl, rfl⟩)
  · intro long
    have some := long_payload (UInt32.not_le.mp long)
    apply ensures_bind
    apply ensures_load_field
    apply ensures_bind
    apply ensures_rand
    intro choice _
    apply ensures_bind
    apply ensures_if
    · intro _
      apply ensures_bind
      apply ensures_rand
      intro drawn _
      apply ensures_bind
      apply ensures_remainder
      · exact fun _ => trivial
      · intro positive
        have below := Nat.mod_lt drawn positive
        apply ensures_pure
        apply (randomize_ensures (Nat.succ_pos _)).mono
        · intro value after ⟨same, written⟩
          rw [same]
          exact .inr ⟨Nat.succ_pos _, UInt32.not_le.mp long, .inl ⟨Nat.succ_pos _, below⟩, written⟩
        · exact fun _ _ _ => trivial
    · intro _
      apply ensures_pure
      have positive : 0 < (fieldOf store lenOffset - 2 - 3).toNat := by omega
      apply (randomize_ensures positive).mono
      · intro value after ⟨same, written⟩
        rw [same]
        exact .inr ⟨positive, UInt32.not_le.mp long, .inr ⟨advertising, rfl⟩, written⟩
      · exact fun _ _ _ => trivial

theorem ll_data_possibly (layer : FuzzLayer) {payloadLen : Nat} {payload : Memory}
    (long : 5 < fieldOf store lenOffset) (some : 0 < payloadLen)
    (fits : payloadLen ≤ (clamp (fieldOf store maxPayloadLenOffset)).toNat)
    (randomized : Randomized payloadLen store.memory payload) :
    Possibly (llDataMutator layer) store fun value after =>
      value = payloadLen ∧ after.memory = lengthWritten payloadLen payload := by
  have limit := (clamp_le (fieldOf store maxPayloadLenOffset)).1
  have positive : 0 < (clamp (fieldOf store maxPayloadLenOffset)).toNat := by omega
  have drawable : payloadLen - 1 ≤ randMax := by
    have large : 255 ≤ randMax := by decide
    omega
  have drawn : (payloadLen - 1) % (clamp (fieldOf store maxPayloadLenOffset)).toNat + 1 =
      payloadLen := by
    rw [Nat.mod_eq_of_lt (by omega)]
    omega
  apply possibly_bind
  apply possibly_load_field
  apply possibly_if (fun short => absurd long (UInt32.not_lt.mpr short))
  intro _
  apply possibly_bind
  apply possibly_load_field
  apply possibly_bind
  apply possibly_rand _ drawable
  apply possibly_bind
  apply possibly_remainder positive
  dsimp only [field_of_touch]
  rw [drawn]
  exact randomize_possibly some (by omega) randomized

theorem ll_advertising_possibly {payloadLen : Nat} {payload : Memory}
    (long : 5 < fieldOf store lenOffset) (narrow : (fieldOf store lenOffset).toNat ≤ 260)
    (drawable : Drawable store payloadLen)
    (randomized : Randomized payloadLen store.memory payload) :
    Possibly llAdvertisingMutator store fun value after =>
      value = payloadLen ∧ after.memory = lengthWritten payloadLen payload := by
  have limit := (clamp_le (fieldOf store maxPayloadLenOffset)).1
  have length := long_payload long
  apply possibly_bind
  apply possibly_load_field
  apply possibly_if (fun short => absurd long (UInt32.not_lt.mpr short))
  intro _
  apply possibly_bind
  apply possibly_load_field
  apply possibly_bind
  cases drawable with
  | inl fits =>
      have positive : 0 < (clamp (fieldOf store maxPayloadLenOffset)).toNat := by omega
      have inRange : payloadLen - 1 ≤ randMax := by
        have large : 255 ≤ randMax := by decide
        omega
      have drawn : (payloadLen - 1) % (clamp (fieldOf store maxPayloadLenOffset)).toNat + 1 =
          payloadLen := by
        rw [Nat.mod_eq_of_lt (by omega)]
        omega
      apply possibly_rand 99 (by decide)
      apply possibly_bind
      apply possibly_if
      · intro _
        apply possibly_bind
        apply possibly_rand _ inRange
        apply possibly_bind
        apply possibly_remainder positive
        apply possibly_pure
        rw [drawn]
        exact randomize_possibly fits.1 (by omega) randomized
      · exact fun never => absurd (by decide) never
  | inr same =>
      apply possibly_rand 0 (Nat.zero_le _)
      apply possibly_bind
      apply possibly_if
      · exact fun never => absurd never (by decide)
      · intro _
        apply possibly_pure
        rw [← same.2]
        exact randomize_possibly (by omega) (by omega) randomized

end

/-- Whatever is drawn, a call leaves the packet as it was, or with a payload of a length
that can be drawn. -/
theorem mutate_pkt_ensures (idx : Nat) (store : Store) :
    Ensures (mutatePkt idx) store (fun _ after => RandomReached store after.memory)
      fun _ _ => True := by
  apply ensures_bind
  apply ensures_rand
  intro skip _
  apply ensures_if
  · exact fun _ => ensures_pure (.inl rfl)
  · intro _
    have marked (value : Nat) (middle : Store) (mutated : Mutated store value middle.memory) :
        Ensures (do
            whenever (value ≠ 0) (saveField mutatedOffset 1)
            return value : Program Rand Nat) middle
          (fun _ after => RandomReached store after.memory) fun _ _ => True := by
      apply ensures_bind
      apply ensures_whenever
      · intro busy
        apply ensures_save_word
        apply ensures_pure
        cases mutated with
        | inl idle => exact absurd idle.1 busy
        | inr written =>
            obtain ⟨_, long, drawable, payload, randomized, same⟩ := written
            refine .inr ⟨long, value, drawable, payload, randomized, ?_⟩
            rw [stamped, ← same]
            rfl
      · intro idle
        apply ensures_pure
        cases mutated with
        | inl unchanged => exact .inl unchanged.2
        | inr written => exact absurd (Nat.pos_iff_ne_zero.mp written.1) idle
    apply ensures_bind
    apply ensures_bind
    apply ensures_bind
    apply ensures_load_field
    apply ensures_pure
    apply ensures_if
    · intro _
      apply ensures_bind
      apply (@upper_layer_type_ensures _ fun _ _ => True).mono
      · intro layer middle ⟨_, same⟩
        have kept : middle.memory = store.memory := same
        apply (ll_data_ensures layer).mono
        · intro value after mutated
          exact marked value after (mutated_congr kept mutated)
        · exact fun _ _ _ => trivial
      · exact fun _ _ _ => trivial
    · intro advertising
      have address : fieldOf store addressOffset = advertisingAddress := by
        simpa using advertising
      apply (@ll_advertising_ensures (store.touch _) address).mono
      · intro value after mutated
        exact marked value after mutated
      · exact fun _ _ _ => trivial

theorem mutate_pkt_possibly (idx : Nat) {store : Store} {memory : Memory}
    (narrow : (fieldOf store lenOffset).toNat ≤ 260) (reached : RandomReached store memory) :
    Possibly (mutatePkt idx) store fun _ after => after.memory = memory := by
  apply possibly_bind
  cases reached with
  | inl same =>
      apply possibly_rand 98 (by decide)
      apply possibly_if
      · exact fun _ => possibly_pure same.symm
      · exact fun never => absurd (by decide) never
  | inr written =>
      obtain ⟨long, payloadLen, drawable, payload, randomized, same⟩ := written
      have limit := (clamp_le (fieldOf store maxPayloadLenOffset)).1
      have length := long_payload long
      have some : 0 < payloadLen := by
        cases drawable with
        | inl fits => exact fits.1
        | inr asItIs => omega
      have marked (middle : Store) (lengthSet : middle.memory = lengthWritten payloadLen payload) :
          Possibly (do
              whenever (payloadLen ≠ 0) (saveField mutatedOffset 1)
              return payloadLen : Program Rand Nat) middle
            fun _ after => after.memory = memory := by
        apply possibly_bind
        apply possibly_whenever
        · intro _
          apply possibly_save_word
          apply possibly_pure
          rw [same, stamped, ← lengthSet]
          rfl
        · exact fun none => absurd (Nat.pos_iff_ne_zero.mp some) none
      apply possibly_rand 0 (Nat.zero_le _)
      apply possibly_if
      · exact fun never => absurd never (by decide)
      · intro _
        apply possibly_bind
        apply possibly_bind
        apply possibly_bind
        apply possibly_load_field
        apply possibly_pure
        apply possibly_if
        · intro data
          have address : fieldOf store addressOffset ≠ advertisingAddress := by
            simpa using data
          have fits : payloadLen ≤ (clamp (fieldOf store maxPayloadLenOffset)).toNat := by
            cases drawable with
            | inl fits => exact fits.2
            | inr asItIs => exact absurd asItIs.1 address
          apply possibly_bind
          apply (upper_layer_type_possibly _).mono
          intro layer middle ⟨_, same⟩
          have kept : middle.memory = store.memory := same
          have fields (offset : Nat) : fieldOf middle offset = fieldOf store offset :=
            field_of_congr kept offset
          rw [← fields] at long fits
          rw [← kept] at randomized
          apply (ll_data_possibly layer long some fits randomized).mono
          intro value after ⟨valued, lengthSet⟩
          rw [valued]
          exact marked after lengthSet
        · intro _
          apply (@ll_advertising_possibly (store.touch _) _ _ long narrow drawable randomized).mono
          intro value middle ⟨valued, lengthSet⟩
          rw [valued]
          exact marked middle lengthSet

/-- Over all draws the random mutator leaves exactly the packet as it was and, of one with
a payload, every packet with a new length that can be drawn, any first byte and at most a
third of its payload changed. -/
theorem random_mutator_yields_iff (idx : Nat) (store : Store) (memory : Memory)
    (narrow : (fieldOf store lenOffset).toNat ≤ 260) :
    Yields (mutatePkt idx) store memory ↔ RandomReached store memory :=
  yields_iff (mutate_pkt_ensures idx store) (fun _ => mutate_pkt_possibly idx narrow) memory

/-- The packet cut to one byte of payload. -/
theorem mtu_request_cut :
    Yields (mutatePkt 0) (place mtuRequest zeros) (stamped 1 (place mtuRequest zeros).memory) := by
  have fields := place_field mtuRequest zeros
  have narrow : (fieldOf (place mtuRequest zeros) lenOffset).toNat ≤ 260 := by
    rw [fields.1]
    decide
  apply (random_mutator_yields_iff 0 (place mtuRequest zeros) _ narrow).mpr
  refine .inr ⟨?_, 1, .inl ⟨by decide, ?_⟩, (place mtuRequest zeros).memory, ?_, rfl⟩
  · rw [fields.1]
    decide
  · rw [fields.2.1]
    decide
  · refine ⟨(place mtuRequest zeros).memory pktOffset, [], by decide, ?_, ?_⟩
    · exact fun _ member => absurd member List.not_mem_nil
    · intro position _
      rw [Function.update_eq_self]

end Blueman.RandomOutputs
