import Blueman.Mutator

/-!
# The AFL-style mutator

`mutator_afl4.c`. A round draws its operation below 8, so the operations the
source numbers from 8 on, which are the only ones to change the length, are
never run; the length is the same in every round.
-/

namespace Blueman.MutatorAfl4

open LittleEndian ByteMachine BlePacket MutateStrategy Mutator

set_option autoImplicit false

def interesting32 : List Int :=
  interesting16 ++
    [-2147483648, -100663046, -32769, 32768, 65535, 65536, 100663045, 2147483647]

def flipBit (bytes bytesLen : Nat) : Program Rand Unit := do
  let bitPos ← remainder (← rand) (bytesLen * 8)
  let byte ← load (bytes + bitPos / 8)
  save (bytes + bitPos / 8) (byte ^^^ (1 <<< UInt8.ofNat (bitPos % 8)))

def setInterestingByte (bytes bytesLen : Nat) : Program Rand Unit := do
  let pos ← remainder (← rand) bytesLen
  let value ← lookup interesting8 ((← rand) % interesting8.length)
  save (bytes + pos) (UInt8.ofInt value)

def setInterestingWord (bytes bytesLen : Nat) : Program Rand Unit := do
  let pos ← remainder (← rand) (bytesLen - 1)
  let value ← lookup interesting16 ((← rand) % interesting16.length)
  saveWord 2 (bytes + pos) (BitVec.ofInt (8 * 2) value)

/-- With odd `order` the dword is stored little-endian, else byte by byte from
the most significant one down. -/
def setInterestingDword (bytes bytesLen : Nat) : Program Rand Unit := do
  let pos ← remainder (← rand) (bytesLen - 3)
  let order ← rand
  let value ← lookup interesting32 ((← rand) % interesting32.length)
  let word : BitVec (8 * 4) := BitVec.ofInt (8 * 4) value
  if order % 2 ≠ 0 then saveWord 4 (bytes + pos) word
  else do
    save (bytes + pos) (byteOf word 3)
    save (bytes + pos + 1) (byteOf word 2)
    save (bytes + pos + 2) (byteOf word 1)
    save (bytes + pos + 3) (byteOf word 0)

def combineByte (combine : UInt8 → UInt8 → UInt8) (bytes bytesLen : Nat) : Program Rand Unit := do
  let pos ← remainder (← rand) bytesLen
  let value := (← rand) % arithMax + 1
  let byte ← load (bytes + pos)
  save (bytes + pos) (combine byte (UInt8.ofNat value))

def combineWord (combine : BitVec (8 * 2) → BitVec (8 * 2) → BitVec (8 * 2))
    (bytes bytesLen : Nat) : Program Rand Unit := do
  let pos ← remainder (← rand) (bytesLen - 1)
  let value := (← rand) % arithMax + 1
  let word ← loadWord 2 (bytes + pos)
  saveWord 2 (bytes + pos) (combine word (BitVec.ofNat (8 * 2) value))

/-- One turn of the loop of `afl_mutate_havoc`; an operation that needs more
bytes than there are is skipped. -/
def aflMutateRound (bytes bytesLen : Nat) : Program Rand Unit := do
  let operation := (← rand) % 8
  match operation with
  | 0 => whenever (bytesLen ≠ 0) (flipBit bytes bytesLen)
  | 1 => whenever (bytesLen ≠ 0) (setInterestingByte bytes bytesLen)
  | 2 => whenever (2 ≤ bytesLen) (setInterestingWord bytes bytesLen)
  | 3 => whenever (4 ≤ bytesLen) (setInterestingDword bytes bytesLen)
  | 4 => whenever (bytesLen ≠ 0) (combineByte (· - ·) bytes bytesLen)
  | 5 => whenever (2 ≤ bytesLen) (combineWord (· - ·) bytes bytesLen)
  | 6 => whenever (bytesLen ≠ 0) (combineByte (· + ·) bytes bytesLen)
  | 7 => whenever (2 ≤ bytesLen) (combineWord (· + ·) bytes bytesLen)
  | _ => pure ()

def aflMutateHavoc (bytes bytesLen : Nat) : Program Rand Unit := do
  let round := (← rand) % (bytesLen / 2 + 1) + 1
  forRange (fun _ => aflMutateRound bytes bytesLen) 0 round

def mutateStrategy : Program Rand Nat := do
  let maxPayloadLen ← loadField maxPayloadLenOffset
  let payloadLen ← remainder (← rand) ((clamp maxPayloadLen).toNat + 1)
  saveField lenOffset (UInt32.ofNat (payloadLen + 2 + 3))
  let lenTmp ← loadField lenOffset
  aflMutateHavoc pktOffset lenTmp.toNat
  saveField lenOffset lenTmp
  saveField mutatedOffset 1
  return 1

def shouldMutatePacket (_idx : Nat) : Bool := true

def mutatePkt (idx : Nat) : Program Rand Nat :=
  if !shouldMutatePacket idx then return 0
  else do
    let result ← mutateStrategy
    let len ← loadField lenOffset
    let maxPayloadLen ← loadField maxPayloadLenOffset
    whenever (len > maxPayloadLen) (saveField lenOffset maxPayloadLen)
    return result

theorem combine_byte_confined (combine : UInt8 → UInt8 → UInt8) (bytes bytesLen : Nat) :
    Confined (region bytes bytesLen) (region bytes bytesLen)
      (combineByte combine bytes bytesLen) := by
  refine confined_bind confined_rand fun _ => confined_remainder_bind fun pos below => ?_
  have inside : bytes + pos ∈ region bytes bytesLen := Set.mem_Ico.mpr ⟨by omega, by omega⟩
  apply confined_bind confined_rand
  intro _
  exact confined_bind (confined_load inside) fun _ => confined_save _ inside inside

theorem combine_word_confined (combine : BitVec (8 * 2) → BitVec (8 * 2) → BitVec (8 * 2))
    (bytes bytesLen : Nat) :
    Confined (region bytes bytesLen) (region bytes bytesLen)
      (combineWord combine bytes bytesLen) := by
  refine confined_bind confined_rand fun _ => confined_remainder_bind fun pos below => ?_
  have inside (index : Nat) (inWord : index < 2) : bytes + pos + index ∈ region bytes bytesLen :=
    Set.mem_Ico.mpr ⟨by omega, by omega⟩
  apply confined_bind confined_rand
  intro _
  exact confined_bind (confined_load_word inside) fun _ => confined_save_word _ inside inside

theorem interesting_dword_confined (bytes bytesLen : Nat) :
    Confined (region bytes bytesLen) (region bytes bytesLen)
      (setInterestingDword bytes bytesLen) := by
  refine confined_bind confined_rand fun _ => confined_remainder_bind fun pos below => ?_
  have inside (index : Nat) (inWord : index < 4) : bytes + pos + index ∈ region bytes bytesLen :=
    Set.mem_Ico.mpr ⟨by omega, by omega⟩
  have byteAt (index : Nat) (inWord : index < 4) (byte : UInt8) :
      Confined (region bytes bytesLen) (region bytes bytesLen)
        (save (bytes + pos + index) byte : Program Rand Unit) :=
    confined_save byte (inside index inWord) (inside index inWord)
  apply confined_bind confined_rand
  intro order
  refine confined_bind confined_rand fun _ => confined_bind (confined_lookup _ _) fun value => ?_
  apply confined_if (fun _ => confined_save_word _ inside inside)
  intro _
  apply confined_bind (byteAt 0 (by decide) _)
  intro _
  apply confined_bind (byteAt 1 (by decide) _)
  intro _
  exact confined_bind (byteAt 2 (by decide) _) fun _ => byteAt 3 (by decide) _

theorem afl_mutate_round_confined (bytes bytesLen : Nat) :
    Confined (region bytes bytesLen) (region bytes bytesLen) (aflMutateRound bytes bytesLen) := by
  apply confined_bind confined_rand
  intro drawn
  dsimp only
  split
  · refine confined_whenever fun _ => confined_bind confined_rand fun _ => ?_
    apply confined_remainder_bind
    intro bitPos below
    have inside : bytes + bitPos / 8 ∈ region bytes bytesLen :=
      Set.mem_Ico.mpr ⟨by omega, by omega⟩
    exact confined_bind (confined_load inside) fun _ => confined_save _ inside inside
  · refine confined_whenever fun _ => confined_bind confined_rand fun _ => ?_
    apply confined_remainder_bind
    intro pos below
    have inside : bytes + pos ∈ region bytes bytesLen := Set.mem_Ico.mpr ⟨by omega, by omega⟩
    refine confined_bind confined_rand fun _ => confined_bind (confined_lookup _ _) fun value => ?_
    exact confined_save _ inside inside
  · refine confined_whenever fun _ => confined_bind confined_rand fun _ => ?_
    apply confined_remainder_bind
    intro pos below
    have inside (index : Nat) (inWord : index < 2) :
        bytes + pos + index ∈ region bytes bytesLen := Set.mem_Ico.mpr ⟨by omega, by omega⟩
    refine confined_bind confined_rand fun _ => confined_bind (confined_lookup _ _) fun value => ?_
    exact confined_save_word _ inside inside
  · exact confined_whenever fun _ => interesting_dword_confined bytes bytesLen
  · exact confined_whenever fun _ => combine_byte_confined _ bytes bytesLen
  · exact confined_whenever fun _ => combine_word_confined _ bytes bytesLen
  · exact confined_whenever fun _ => combine_byte_confined _ bytes bytesLen
  · exact confined_whenever fun _ => combine_word_confined _ bytes bytesLen
  · exact confined_pure ()

theorem afl_mutate_havoc_confined (bytes bytesLen : Nat) :
    Confined (region bytes bytesLen) (region bytes bytesLen) (aflMutateHavoc bytes bytesLen) :=
  confined_bind confined_rand fun _ =>
    confined_for_range fun _ _ _ => afl_mutate_round_confined bytes bytesLen

end Blueman.MutatorAfl4
