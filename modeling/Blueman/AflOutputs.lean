import Blueman.AflLength
import Blueman.MutatorOutputs

/-!
# What the AFL-style mutator can make of a packet

A new length, some edits of the packet at that length, and the length cut to the
limit: over all draws the mutator leaves exactly such packets. An edit is what one
round can do: a bit flipped, an interesting value stored, or a small number added or
subtracted.
-/

namespace Blueman.AflOutputs

open LittleEndian ByteMachine BlePacket MutateStrategy Mutator MutatorAfl4 MutatorBounds
open MutatorOutputs

set_option autoImplicit false

/-- The values that a round can put in place of a byte. -/
inductive ByteValue (byte : UInt8) : UInt8 → Prop
  | flipped (bit : Nat) (inByte : bit < 8) : ByteValue byte (byte ^^^ (1 <<< UInt8.ofNat bit))
  | interesting (value : Int) (known : value ∈ interesting8) : ByteValue byte (UInt8.ofInt value)
  | less (number : Nat) (some : 0 < number) (small : number ≤ arithMax) :
      ByteValue byte (byte - UInt8.ofNat number)
  | more (number : Nat) (some : 0 < number) (small : number ≤ arithMax) :
      ByteValue byte (byte + UInt8.ofNat number)

inductive WordValue (word : BitVec (8 * 2)) : BitVec (8 * 2) → Prop
  | interesting (value : Int) (known : value ∈ interesting16) :
      WordValue word (BitVec.ofInt (8 * 2) value)
  | less (number : Nat) (some : 0 < number) (small : number ≤ arithMax) :
      WordValue word (word - BitVec.ofNat (8 * 2) number)
  | more (number : Nat) (some : 0 < number) (small : number ≤ arithMax) :
      WordValue word (word + BitVec.ofNat (8 * 2) number)

def bigEndian (address : Nat) (word : BitVec (8 * 4)) : Memory := fun position =>
  byteOf word (3 - (position - address))

/-- One round on so many bytes; a value of four bytes is stored in either order. -/
inductive Edit (bytes bytesLen : Nat) (before : Memory) : Memory → Prop
  | byte (pos : Nat) (inside : pos < bytesLen) {value : UInt8}
      (fits : ByteValue (before (bytes + pos)) value) :
      Edit bytes bytesLen before (Function.update before (bytes + pos) value)
  | word (pos : Nat) (inside : pos + 2 ≤ bytesLen) {value : BitVec (8 * 2)}
      (fits : WordValue (readWord 2 before (bytes + pos)) value) :
      Edit bytes bytesLen before (writeWord 2 before (bytes + pos) value)
  | dword (pos : Nat) (inside : pos + 4 ≤ bytesLen) (value : Int) (known : value ∈ interesting32) :
      Edit bytes bytesLen before (writeWord 4 before (bytes + pos) (BitVec.ofInt (8 * 4) value))
  | reversed (pos : Nat) (inside : pos + 4 ≤ bytesLen) (value : Int)
      (known : value ∈ interesting32) :
      Edit bytes bytesLen before
        (patched (bytes + pos) 4 (bigEndian (bytes + pos) (BitVec.ofInt (8 * 4) value)) before)

section

variable {bytes bytesLen : Nat} {store : Store}

theorem arith_number (drawn : Nat) :
    0 < drawn % arithMax + 1 ∧ drawn % arithMax + 1 ≤ arithMax :=
  ⟨Nat.succ_pos _, Nat.mod_lt drawn (by decide)⟩

theorem flip_bit_ensures :
    Ensures (flipBit bytes bytesLen) store
      (fun _ after => Edit bytes bytesLen store.memory after.memory) fun _ _ => True := by
  apply ensures_bind
  apply ensures_rand
  intro drawn _
  apply ensures_bind
  apply ensures_remainder
  · exact fun _ => trivial
  · intro positive
    have below := Nat.mod_lt drawn positive
    apply ensures_bind
    apply ensures_load
    apply ensures_save
    exact .byte _ (by omega) (.flipped _ (Nat.mod_lt _ (by decide)))

theorem interesting_byte_ensures :
    Ensures (setInterestingByte bytes bytesLen) store
      (fun _ after => Edit bytes bytesLen store.memory after.memory) fun _ _ => True := by
  apply ensures_bind
  apply ensures_rand
  intro drawn _
  apply ensures_bind
  apply ensures_remainder
  · exact fun _ => trivial
  · intro positive
    have below := Nat.mod_lt drawn positive
    apply ensures_bind
    apply ensures_rand
    intro index _
    apply ensures_bind
    apply ensures_lookup
    · exact fun _ => trivial
    · intro value known
      apply ensures_save
      exact .byte _ below (.interesting value known)

theorem interesting_word_ensures :
    Ensures (setInterestingWord bytes bytesLen) store
      (fun _ after => Edit bytes bytesLen store.memory after.memory) fun _ _ => True := by
  apply ensures_bind
  apply ensures_rand
  intro drawn _
  apply ensures_bind
  apply ensures_remainder
  · exact fun _ => trivial
  · intro positive
    have below := Nat.mod_lt drawn positive
    apply ensures_bind
    apply ensures_rand
    intro index _
    apply ensures_bind
    apply ensures_lookup
    · exact fun _ => trivial
    · intro value known
      apply ensures_save_word
      exact .word _ (by omega) (.interesting value known)

theorem big_endian_saved (memory : Memory) (address : Nat) (word : BitVec (8 * 4)) :
    Function.update (Function.update (Function.update (Function.update memory address
        (byteOf word 3)) (address + 1) (byteOf word 2)) (address + 2) (byteOf word 1))
        (address + 3) (byteOf word 0) =
      patched address 4 (bigEndian address word) memory := by
  have value (index : Nat) :
      bigEndian address word (address + index) = byteOf word (3 - index) := by
    unfold bigEndian
    rw [Nat.add_sub_cancel_left]
  rw [← patched_put address 3, ← patched_put address 2, ← patched_put address 1,
    ← patched_put address 0, patched_none, value 3, value 2, value 1, value 0]
  rfl

theorem interesting_dword_ensures :
    Ensures (setInterestingDword bytes bytesLen) store
      (fun _ after => Edit bytes bytesLen store.memory after.memory) fun _ _ => True := by
  apply ensures_bind
  apply ensures_rand
  intro drawn _
  apply ensures_bind
  apply ensures_remainder
  · exact fun _ => trivial
  · intro positive
    have below := Nat.mod_lt drawn positive
    apply ensures_bind
    apply ensures_rand
    intro order _
    apply ensures_bind
    apply ensures_rand
    intro index _
    apply ensures_bind
    apply ensures_lookup
    · exact fun _ => trivial
    · intro value known
      apply ensures_if
      · intro _
        apply ensures_save_word
        exact .dword _ (by omega) value known
      · intro _
        apply ensures_bind
        apply ensures_save
        apply ensures_bind
        apply ensures_save
        apply ensures_bind
        apply ensures_save
        apply ensures_save
        have saved := big_endian_saved store.memory (bytes + drawn % (bytesLen - 3))
          (BitVec.ofInt (8 * 4) value)
        change Edit bytes bytesLen store.memory (Function.update _ _ _)
        simp only [Store.put]
        rw [saved]
        exact .reversed _ (by omega) value known

theorem combine_byte_ensures {combine : UInt8 → UInt8 → UInt8}
    (fits : ∀ byte number, 0 < number → number ≤ arithMax →
      ByteValue byte (combine byte (UInt8.ofNat number))) :
    Ensures (combineByte combine bytes bytesLen) store
      (fun _ after => Edit bytes bytesLen store.memory after.memory) fun _ _ => True := by
  apply ensures_bind
  apply ensures_rand
  intro drawn _
  apply ensures_bind
  apply ensures_remainder
  · exact fun _ => trivial
  · intro positive
    have below := Nat.mod_lt drawn positive
    apply ensures_bind
    apply ensures_rand
    intro number _
    apply ensures_bind
    apply ensures_load
    apply ensures_save
    exact .byte _ below (fits _ _ (arith_number number).1 (arith_number number).2)

theorem combine_word_ensures {combine : BitVec (8 * 2) → BitVec (8 * 2) → BitVec (8 * 2)}
    (fits : ∀ word number, 0 < number → number ≤ arithMax →
      WordValue word (combine word (BitVec.ofNat (8 * 2) number))) :
    Ensures (combineWord combine bytes bytesLen) store
      (fun _ after => Edit bytes bytesLen store.memory after.memory) fun _ _ => True := by
  apply ensures_bind
  apply ensures_rand
  intro drawn _
  apply ensures_bind
  apply ensures_remainder
  · exact fun _ => trivial
  · intro positive
    have below := Nat.mod_lt drawn positive
    apply ensures_bind
    apply ensures_rand
    intro number _
    apply ensures_bind
    apply ensures_load_word
    apply ensures_save_word
    exact .word _ (by omega) (fits _ _ (arith_number number).1 (arith_number number).2)

theorem round_ensures (four : 4 ≤ bytesLen) (store : Store) :
    Ensures (aflMutateRound bytes bytesLen) store
      (fun _ after => Edit bytes bytesLen store.memory after.memory) fun _ _ => True := by
  apply ensures_bind
  apply ensures_rand
  intro drawn _
  have below : drawn % 8 < 8 := Nat.mod_lt drawn (by decide)
  dsimp only
  generalize drawn % 8 = operation at below
  interval_cases operation
  · exact ensures_whenever (fun _ => flip_bit_ensures) fun short => by omega
  · exact ensures_whenever (fun _ => interesting_byte_ensures) fun short => by omega
  · exact ensures_whenever (fun _ => interesting_word_ensures) fun short => by omega
  · exact ensures_whenever (fun _ => interesting_dword_ensures) fun short => by omega
  · exact ensures_whenever (fun _ => combine_byte_ensures fun _ => .less) fun short => by omega
  · exact ensures_whenever (fun _ => combine_word_ensures fun _ => .less) fun short => by omega
  · exact ensures_whenever (fun _ => combine_byte_ensures fun _ => .more) fun short => by omega
  · exact ensures_whenever (fun _ => combine_word_ensures fun _ => .more) fun short => by omega

theorem drawn_as_is {number limit : Nat} (below : number < limit) (narrow : limit ≤ 4096) :
    number ≤ randMax ∧ number % limit = number := by
  have large : 4096 ≤ randMax := by decide
  exact ⟨by omega, Nat.mod_eq_of_lt below⟩

theorem known_drawable {table : List Int} {value : Int} (known : value ∈ table)
    (short : table.length ≤ 4096) :
    ∃ drawn, drawn ≤ randMax ∧ table[drawn % table.length]? = some value := by
  obtain ⟨index, below, found⟩ := List.getElem_of_mem known
  have drawable := drawn_as_is below short
  refine ⟨index, drawable.1, ?_⟩
  rw [drawable.2, List.getElem?_eq_getElem below, found]

theorem number_drawable {number : Nat} (some : 0 < number) (small : number ≤ arithMax) :
    number - 1 ≤ randMax ∧ (number - 1) % arithMax + 1 = number := by
  have below : number - 1 < arithMax := by omega
  have drawable := drawn_as_is below (by decide)
  refine ⟨drawable.1, ?_⟩
  rw [drawable.2]
  omega

theorem flip_bit_possibly {pos bit : Nat} (inside : pos < bytesLen) (inByte : bit < 8)
    (narrow : bytesLen ≤ 260) : Possibly (flipBit bytes bytesLen) store fun _ after =>
      after.memory = Function.update store.memory (bytes + pos)
        (store.memory (bytes + pos) ^^^ (1 <<< UInt8.ofNat bit)) := by
  have drawable := @drawn_as_is (pos * 8 + bit) (bytesLen * 8) (by omega) (by omega)
  have place : (pos * 8 + bit) / 8 = pos := by omega
  have shift : (pos * 8 + bit) % 8 = bit := by omega
  apply possibly_bind
  apply possibly_rand _ drawable.1
  apply possibly_bind
  apply possibly_remainder (by omega)
  apply possibly_bind
  apply possibly_load
  apply possibly_save
  rw [drawable.2, place, shift]
  rfl

theorem interesting_byte_possibly {pos : Nat} {value : Int} (inside : pos < bytesLen)
    (known : value ∈ interesting8) (narrow : bytesLen ≤ 260) :
    Possibly (setInterestingByte bytes bytesLen) store fun _ after =>
      after.memory = Function.update store.memory (bytes + pos) (UInt8.ofInt value) := by
  have drawable := drawn_as_is inside (by omega)
  obtain ⟨index, inRange, found⟩ := known_drawable known (by decide)
  apply possibly_bind
  apply possibly_rand _ drawable.1
  apply possibly_bind
  apply possibly_remainder (by omega)
  apply possibly_bind
  apply possibly_rand index inRange
  apply possibly_bind
  apply possibly_lookup found
  apply possibly_save
  rw [drawable.2]
  rfl

theorem interesting_word_possibly {pos : Nat} {value : Int} (inside : pos + 2 ≤ bytesLen)
    (known : value ∈ interesting16) (narrow : bytesLen ≤ 260) :
    Possibly (setInterestingWord bytes bytesLen) store fun _ after =>
      after.memory = writeWord 2 store.memory (bytes + pos) (BitVec.ofInt (8 * 2) value) := by
  have drawable := @drawn_as_is pos (bytesLen - 1) (by omega) (by omega)
  obtain ⟨index, inRange, found⟩ := known_drawable known (by decide)
  apply possibly_bind
  apply possibly_rand _ drawable.1
  apply possibly_bind
  apply possibly_remainder (by omega)
  apply possibly_bind
  apply possibly_rand index inRange
  apply possibly_bind
  apply possibly_lookup found
  apply possibly_save_word
  rw [drawable.2]
  rfl

theorem interesting_dword_possibly {pos : Nat} {value : Int} (inside : pos + 4 ≤ bytesLen)
    (known : value ∈ interesting32) (narrow : bytesLen ≤ 260) :
    Possibly (setInterestingDword bytes bytesLen) store (fun _ after =>
        after.memory = writeWord 4 store.memory (bytes + pos) (BitVec.ofInt (8 * 4) value)) ∧
      Possibly (setInterestingDword bytes bytesLen) store fun _ after =>
        after.memory = patched (bytes + pos) 4
          (bigEndian (bytes + pos) (BitVec.ofInt (8 * 4) value)) store.memory := by
  have drawable := @drawn_as_is pos (bytesLen - 3) (by omega) (by omega)
  obtain ⟨index, inRange, found⟩ := known_drawable known (by decide)
  constructor
  · apply possibly_bind
    apply possibly_rand _ drawable.1
    apply possibly_bind
    apply possibly_remainder (by omega)
    apply possibly_bind
    apply possibly_rand 1 (by decide)
    apply possibly_bind
    apply possibly_rand index inRange
    apply possibly_bind
    apply possibly_lookup found
    apply possibly_if
    · intro _
      apply possibly_save_word
      rw [drawable.2]
      rfl
    · exact fun never => absurd (by decide) never
  · apply possibly_bind
    apply possibly_rand _ drawable.1
    apply possibly_bind
    apply possibly_remainder (by omega)
    apply possibly_bind
    apply possibly_rand 0 (by decide)
    apply possibly_bind
    apply possibly_rand index inRange
    apply possibly_bind
    apply possibly_lookup found
    apply possibly_if
    · exact fun never => absurd never (by decide)
    · intro _
      apply possibly_bind
      apply possibly_save
      apply possibly_bind
      apply possibly_save
      apply possibly_bind
      apply possibly_save
      apply possibly_save
      rw [drawable.2]
      exact big_endian_saved _ _ _

theorem combine_byte_possibly {combine : UInt8 → UInt8 → UInt8} {pos number : Nat}
    (inside : pos < bytesLen) (some : 0 < number) (small : number ≤ arithMax)
    (narrow : bytesLen ≤ 260) : Possibly (combineByte combine bytes bytesLen) store fun _ after =>
      after.memory = Function.update store.memory (bytes + pos)
        (combine (store.memory (bytes + pos)) (UInt8.ofNat number)) := by
  have drawable := drawn_as_is inside (by omega)
  have amount := number_drawable some small
  apply possibly_bind
  apply possibly_rand _ drawable.1
  apply possibly_bind
  apply possibly_remainder (by omega)
  apply possibly_bind
  apply possibly_rand _ amount.1
  apply possibly_bind
  apply possibly_load
  apply possibly_save
  rw [drawable.2, amount.2]
  rfl

theorem combine_word_possibly {combine : BitVec (8 * 2) → BitVec (8 * 2) → BitVec (8 * 2)}
    {pos number : Nat} (inside : pos + 2 ≤ bytesLen) (some : 0 < number)
    (small : number ≤ arithMax) (narrow : bytesLen ≤ 260) :
    Possibly (combineWord combine bytes bytesLen) store fun _ after =>
      after.memory = writeWord 2 store.memory (bytes + pos)
        (combine (readWord 2 store.memory (bytes + pos)) (BitVec.ofNat (8 * 2) number)) := by
  have drawable := @drawn_as_is pos (bytesLen - 1) (by omega) (by omega)
  have amount := number_drawable some small
  apply possibly_bind
  apply possibly_rand _ drawable.1
  apply possibly_bind
  apply possibly_remainder (by omega)
  apply possibly_bind
  apply possibly_rand _ amount.1
  apply possibly_bind
  apply possibly_load_word
  apply possibly_save_word
  rw [drawable.2, amount.2]
  rfl

theorem enough_possibly {enough : Prop} [Decidable enough] {program : Program Rand Unit}
    {post : Unit → Store → Prop} (holds : enough) (possible : Possibly program store post) :
    Possibly (whenever enough program) store post :=
  possibly_whenever (fun _ => possible) fun short => absurd holds short

theorem round_possibly (four : 4 ≤ bytesLen) (narrow : bytesLen ≤ 260) (store : Store)
    (memory : Memory) (edit : Edit bytes bytesLen store.memory memory) :
    Possibly (aflMutateRound bytes bytesLen) store fun _ after => after.memory = memory := by
  have some : bytesLen ≠ 0 := by omega
  have two : 2 ≤ bytesLen := by omega
  apply possibly_bind
  cases edit with
  | byte pos inside fits =>
      cases fits with
      | flipped bit inByte =>
          apply possibly_rand 0 (by decide)
          exact enough_possibly some (flip_bit_possibly inside inByte narrow)
      | interesting value known =>
          apply possibly_rand 1 (by decide)
          exact enough_possibly some (interesting_byte_possibly inside known narrow)
      | less number positive small =>
          apply possibly_rand 4 (by decide)
          exact enough_possibly some (combine_byte_possibly inside positive small narrow)
      | more number positive small =>
          apply possibly_rand 6 (by decide)
          exact enough_possibly some (combine_byte_possibly inside positive small narrow)
  | word pos inside fits =>
      cases fits with
      | interesting value known =>
          apply possibly_rand 2 (by decide)
          exact enough_possibly two (interesting_word_possibly inside known narrow)
      | less number positive small =>
          apply possibly_rand 5 (by decide)
          exact enough_possibly two (combine_word_possibly inside positive small narrow)
      | more number positive small =>
          apply possibly_rand 7 (by decide)
          exact enough_possibly two (combine_word_possibly inside positive small narrow)
  | dword pos inside value known =>
      apply possibly_rand 3 (by decide)
      exact enough_possibly four (interesting_dword_possibly inside known narrow).1
  | reversed pos inside value known =>
      apply possibly_rand 3 (by decide)
      exact enough_possibly four (interesting_dword_possibly inside known narrow).2

end

/-- At least one edit, and at most one more than half of the bytes. -/
def Havocked (bytes bytesLen : Nat) (before after : Memory) : Prop :=
  ∃ rounds, 0 < rounds ∧ rounds ≤ bytesLen / 2 + 1 ∧
    Repeated (Edit bytes bytesLen) rounds before after

def marked (payloadLen : Nat) (memory : Memory) : Memory :=
  writeWord 4 (lengthened payloadLen memory) (packetAddress + mutatedOffset)
    (1 : UInt32).toBitVec

def limited (memory : Memory) : Memory :=
  let maxPayloadLen := fieldAt memory (packetAddress + maxPayloadLenOffset)
  if fieldAt memory (packetAddress + lenOffset) > maxPayloadLen then
    writeWord 4 memory (packetAddress + lenOffset) maxPayloadLen.toBitVec
  else memory

/-- A length up to the limit, edits of the packet at that length, and the flag. -/
def Mutated (before after : Memory) : Prop :=
  ∃ payloadLen, payloadLen ≤
      (clamp (fieldAt before (packetAddress + maxPayloadLenOffset))).toNat ∧
    ∃ edited, Havocked pktOffset (payloadLen + 5) (lengthened payloadLen before) edited ∧
      after = marked payloadLen edited

def AflReached (before after : Memory) : Prop :=
  ∃ mutated, Mutated before mutated ∧ after = limited mutated

section

variable {bytes bytesLen : Nat} {store : Store}

theorem havoc_ensures (four : 4 ≤ bytesLen) (store : Store) :
    Ensures (aflMutateHavoc bytes bytesLen) store
      (fun _ after => Havocked bytes bytesLen store.memory after.memory) fun _ _ => True := by
  apply ensures_bind
  apply ensures_rand
  intro drawn _
  have below := Nat.mod_lt drawn (Nat.succ_pos (bytesLen / 2))
  apply (repeated_ensures 0 _ (round_ensures four) store).mono
  · exact fun _ after repeated => ⟨_, Nat.succ_pos _, below, repeated⟩
  · exact fun _ _ _ => trivial

theorem havoc_possibly (four : 4 ≤ bytesLen) (narrow : bytesLen ≤ 260) {memory : Memory}
    (havocked : Havocked bytes bytesLen store.memory memory) :
    Possibly (aflMutateHavoc bytes bytesLen) store fun _ after => after.memory = memory := by
  obtain ⟨rounds, some, few, repeated⟩ := havocked
  have drawable := @drawn_as_is (rounds - 1) (bytesLen / 2 + 1) (by omega) (by omega)
  have count : (rounds - 1) % (bytesLen / 2 + 1) + 1 = rounds := by
    rw [drawable.2]
    omega
  apply possibly_bind
  apply possibly_rand _ drawable.1
  dsimp only
  rw [count]
  exact repeated_possibly 0 (round_possibly four narrow) repeated

end

section

variable {store : Store}

theorem saved_len (store : Store) (len : UInt32) :
    fieldOf (store.putWord 4 (packetAddress + lenOffset) len.toBitVec) lenOffset = len :=
  field_of_put_field store lenOffset len

theorem strategy_ensures (store : Store) :
    Ensures mutateStrategy store
      (fun _ after => Mutated store.memory after.memory) fun _ _ => True := by
  apply ensures_bind
  apply ensures_load_field
  apply ensures_bind
  apply ensures_rand
  intro drawn _
  apply ensures_bind
  apply ensures_remainder (fun zero => absurd zero (Nat.succ_ne_zero _))
  intro positive
  have fits := Nat.le_of_lt_succ (Nat.mod_lt drawn positive)
  have limit := (clamp_le (fieldOf store maxPayloadLenOffset)).1
  generalize drawn % _ = payloadLen at fits
  apply ensures_bind
  apply ensures_save_word
  apply ensures_bind
  apply ensures_load_field
  rw [saved_len, drawn_len payloadLen (by omega)]
  apply ensures_bind
  apply (havoc_ensures (by omega) _).mono
  · intro _ middle havocked
    apply ensures_bind
    apply ensures_save_word
    apply ensures_bind
    apply ensures_save_word
    apply ensures_pure
    exact ⟨payloadLen, fits, middle.memory, havocked, rfl⟩
  · exact fun _ _ _ => trivial

theorem strategy_possibly {memory : Memory} (mutated : Mutated store.memory memory) :
    Possibly mutateStrategy store fun _ after => after.memory = memory := by
  obtain ⟨payloadLen, fits, edited, havocked, same⟩ := mutated
  have limit := (clamp_le (fieldAt store.memory (packetAddress + maxPayloadLenOffset))).1
  have drawable := drawn_as_is (Nat.lt_succ_of_le fits) (by omega)
  apply possibly_bind
  apply possibly_load_field
  apply possibly_bind
  apply possibly_rand payloadLen drawable.1
  apply possibly_bind
  apply possibly_remainder (Nat.succ_pos _)
  have drawn : payloadLen % ((clamp (fieldOf store maxPayloadLenOffset)).toNat + 1) =
    payloadLen := drawable.2
  rw [drawn]
  apply possibly_bind
  apply possibly_save_word
  apply possibly_bind
  apply possibly_load_field
  rw [saved_len, drawn_len payloadLen (by omega)]
  apply possibly_bind
  apply (havoc_possibly (by omega) (by omega) havocked).mono
  intro _ middle left
  apply possibly_bind
  apply possibly_save_word
  apply possibly_bind
  apply possibly_save_word
  apply possibly_pure
  rw [same, ← left]
  rfl

theorem mutate_pkt_ensures (idx : Nat) (store : Store) :
    Ensures (mutatePkt idx) store
      (fun _ after => AflReached store.memory after.memory) fun _ _ => True := by
  apply ensures_if
  · intro never
    cases never
  · intro _
    apply ensures_bind
    apply (strategy_ensures store).mono
    · intro result middle mutated
      apply ensures_bind
      apply ensures_load_field
      apply ensures_bind
      apply ensures_load_field
      apply ensures_bind
      apply ensures_whenever
      · intro long
        apply ensures_save_word
        exact ensures_pure ⟨middle.memory, mutated, (if_pos long).symm⟩
      · intro short
        exact ensures_pure ⟨middle.memory, mutated, (if_neg short).symm⟩
    · exact fun _ _ _ => trivial

theorem mutate_pkt_possibly (idx : Nat) {memory : Memory}
    (reached : AflReached store.memory memory) :
    Possibly (mutatePkt idx) store fun _ after => after.memory = memory := by
  obtain ⟨mutated, reaches, same⟩ := reached
  apply possibly_if
  · intro never
    cases never
  · intro _
    apply possibly_bind
    apply (strategy_possibly reaches).mono
    intro result middle left
    rw [← left] at same
    apply possibly_bind
    apply possibly_load_field
    apply possibly_bind
    apply possibly_load_field
    apply possibly_bind
    apply possibly_whenever
    · intro long
      apply possibly_save_word
      apply possibly_pure
      exact ((if_pos long).symm.trans same.symm)
    · intro short
      apply possibly_pure
      exact ((if_neg short).symm.trans same.symm)

end

/-- Over all draws the AFL-style mutator leaves exactly the packets that arise so: a
length up to the limit, edits of the bytes at that length, at least one and at most one
more than half of them, the flag, and the length cut to the limit of the payload. -/
theorem afl_mutator_yields_iff (idx : Nat) (store : Store) (memory : Memory) :
    Yields (mutatePkt idx) store memory ↔ AflReached store.memory memory :=
  yields_iff (mutate_pkt_ensures idx store) (fun _ => mutate_pkt_possibly idx) memory

end Blueman.AflOutputs
