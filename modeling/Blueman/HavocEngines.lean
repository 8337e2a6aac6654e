import Blueman.MutatorAfl4
import Mathlib.Tactic.IntervalCases

/-!
# The two havoc engines

`mutate_havoc`, and `afl_mutate_havoc` as the source writes it: with the length
behind a pointer and with all of its numbered operations, also those that are
never drawn. Both stay inside the region they are given, whatever `rand()`
returns. Which single bytes `mutate_havoc` can replace is here too.
-/

namespace Blueman.HavocEngines

open LittleEndian ByteMachine MutateStrategy MutatorAfl4

set_option autoImplicit false

def loadBytes : Nat → Nat → Program Rand (List UInt8)
  | _, 0 => pure []
  | source, count + 1 => do
      let byte ← load source
      let rest ← loadBytes (source + 1) count
      return byte :: rest

def saveBytes : Nat → List UInt8 → Program Rand Unit
  | _, [] => pure ()
  | address, byte :: rest => do
      save address byte
      saveBytes (address + 1) rest

/-- Everything is read before the first byte is written. -/
def memmove (dest source count : Nat) : Program Rand Unit := do
  saveBytes dest (← loadBytes source count)

def memset (dest : Nat) (byte : UInt8) (count : Nat) : Program Rand Unit :=
  saveBytes dest (List.replicate count byte)

def chooseBlockLen (limit : Nat) : Program Rand Nat :=
  if limit ≤ 1 then return 1
  else do
    let rlim := (← rand) % 3
    let (minValue, maxValue) ← (match rlim with
      | 0 => pure (1, 16)
      | 1 => pure (16, 32)
      | _ => do
          if (← rand) % 10 ≠ 0 then return (32, 128) else return (128, 1500) :
        Program Rand (Nat × Nat))
    let minValue := if minValue ≥ limit then 1 else minValue
    let drawn ← remainder (← rand) (min maxValue limit - minValue + 1)
    return minValue + drawn

/-- With even `order` the dword is taken and put back most significant byte first. -/
def combineDword (combine : BitVec (8 * 4) → BitVec (8 * 4) → BitVec (8 * 4))
    (bytes bytesLen : Nat) : Program Rand Unit := do
  let pos ← remainder (← rand) (bytesLen - 3)
  let value := BitVec.ofNat (8 * 4) ((← rand) % arithMax + 1)
  let order ← rand
  if order % 2 ≠ 0 then do
    let dword ← loadWord 4 (bytes + pos)
    saveWord 4 (bytes + pos) (combine dword value)
  else do
    let first ← load (bytes + pos)
    let second ← load (bytes + pos + 1)
    let third ← load (bytes + pos + 2)
    let fourth ← load (bytes + pos + 3)
    let original : BitVec (8 * 4) :=
      first.toBitVec ++ second.toBitVec ++ third.toBitVec ++ fourth.toBitVec
    let result := combine original value
    saveBytes (bytes + pos) [byteOf result 3, byteOf result 2, byteOf result 1, byteOf result 0]

def xorByte (bytes bytesLen : Nat) : Program Rand Unit := do
  let pos ← remainder (← rand) bytesLen
  let xorVal := (← rand) % 255 + 1
  let byte ← load (bytes + pos)
  save (bytes + pos) (byte ^^^ UInt8.ofNat xorVal)

/-- The result of an operation is the length it leaves behind the pointer. -/
def deleteBytes (bytes bytesLen : Nat) : Program Rand Nat := do
  let chosen ← chooseBlockLen (bytesLen / 2)
  let delLen := if chosen ≥ bytesLen then 1 else chosen
  let delFrom ← remainder (← rand) (bytesLen - delLen + 1)
  memmove (bytes + delFrom) (bytes + delFrom + delLen) (bytesLen - delFrom - delLen)
  return bytesLen - delLen

/-- The room is the difference of two `uint32_t`. -/
def maxInsertion (maxBytesLen bytesLen : Nat) : Nat := (maxBytesLen + 2 ^ 32 - bytesLen) % 2 ^ 32

def insertBytes (bytes bytesLen maxBytesLen : Nat) : Program Rand Nat := do
  let chosen ← chooseBlockLen (min 64 (maxInsertion maxBytesLen bytesLen))
  let insertLen := if chosen = 0 then 1 else chosen
  let insertAt ← remainder (← rand) (bytesLen + 1)
  memmove (bytes + insertAt + insertLen) (bytes + insertAt) (bytesLen - insertAt)
  let clones ← rand
  if clones % 4 < 3 ∧ bytesLen ≠ 0 then do
    let cloneFrom ← remainder (← rand) bytesLen
    let cloneLen := min insertLen (bytesLen - cloneFrom)
    memmove (bytes + insertAt) (bytes + cloneFrom) cloneLen
    whenever (cloneLen < insertLen) do
      let padding ← rand
      memset (bytes + insertAt + cloneLen) (UInt8.ofNat (padding % 256)) (insertLen - cloneLen)
  else do
    let constantVal ← rand
    memset (bytes + insertAt) (UInt8.ofNat (constantVal % 256)) insertLen
  return bytesLen + insertLen

def overwriteBytes (bytes bytesLen : Nat) : Program Rand Unit := do
  let copyLen ← chooseBlockLen (bytesLen - 1)
  let copyTo ← remainder (← rand) (bytesLen - copyLen + 1)
  let copies ← rand
  if copies % 4 < 3 then do
    let copyFrom ← remainder (← rand) (bytesLen - copyLen + 1)
    whenever (copyFrom ≠ copyTo) (memmove (bytes + copyTo) (bytes + copyFrom) copyLen)
  else do
    let constantVal ← rand
    memset (bytes + copyTo) (UInt8.ofNat (constantVal % 256)) copyLen

def inPlace (enough : Prop) [Decidable enough] (bytesLen : Nat) (program : Program Rand Unit) :
    Program Rand Nat := do
  whenever enough program
  return bytesLen

/-- The `switch` of a round. -/
def aflMutateOperation (bytes bytesLen maxBytesLen : Nat) : Nat → Program Rand Nat
  | 0 => inPlace (bytesLen ≠ 0) bytesLen (flipBit bytes bytesLen)
  | 1 => inPlace (bytesLen ≠ 0) bytesLen (setInterestingByte bytes bytesLen)
  | 2 => inPlace (2 ≤ bytesLen) bytesLen (setInterestingWord bytes bytesLen)
  | 3 => inPlace (4 ≤ bytesLen) bytesLen (setInterestingDword bytes bytesLen)
  | 4 => inPlace (bytesLen ≠ 0) bytesLen (combineByte (· - ·) bytes bytesLen)
  | 5 => inPlace (2 ≤ bytesLen) bytesLen (combineWord (· - ·) bytes bytesLen)
  | 6 => inPlace (bytesLen ≠ 0) bytesLen (combineByte (· + ·) bytes bytesLen)
  | 7 => inPlace (2 ≤ bytesLen) bytesLen (combineWord (· + ·) bytes bytesLen)
  | 8 => inPlace (4 ≤ bytesLen) bytesLen (combineDword (· - ·) bytes bytesLen)
  | 9 => inPlace (4 ≤ bytesLen) bytesLen (combineDword (· + ·) bytes bytesLen)
  | 10 => inPlace (bytesLen ≠ 0) bytesLen (xorByte bytes bytesLen)
  | 11 | 12 => if bytesLen < 2 then return bytesLen else deleteBytes bytes bytesLen
  | 13 =>
      if maxInsertion maxBytesLen bytesLen = 0 then return bytesLen
      else insertBytes bytes bytesLen maxBytesLen
  | 14 => inPlace (2 ≤ bytesLen) bytesLen (overwriteBytes bytes bytesLen)
  | _ => return bytesLen

/-- The rounds, each on the length the one before has left behind `bytes_len_ptr`. -/
def aflMutateRounds (bytes maxBytesLen : Nat) : Nat → Nat → Program Rand Nat
  | 0, bytesLen => return bytesLen
  | round + 1, bytesLen => do
      let left ← aflMutateOperation bytes bytesLen maxBytesLen ((← rand) % 8)
      aflMutateRounds bytes maxBytesLen round left

/-- The result is what is left behind `bytes_len_ptr`. -/
def aflMutateHavocAt (bytes bytesLenPtr maxBytesLen : Nat) : Program Rand Nat := do
  let round := (← rand) % (bytesLenPtr / 2 + 1) + 1
  aflMutateRounds bytes maxBytesLen round bytesLenPtr

theorem drawn_operation_eq (bytes bytesLen maxBytesLen : Nat) :
    (do aflMutateOperation bytes bytesLen maxBytesLen ((← rand) % 8) : Program Rand Nat) = (do
      aflMutateRound bytes bytesLen
      return bytesLen) := by
  unfold aflMutateRound
  rw [bind_assoc]
  congr 1
  funext drawn
  have below : drawn % 8 < 8 := Nat.mod_lt drawn (by decide)
  dsimp only
  generalize drawn % 8 = operation at below
  interval_cases operation <;> rfl

theorem afl_mutate_rounds_eq (bytes bytesLen maxBytesLen round start : Nat) :
    aflMutateRounds bytes maxBytesLen round bytesLen = (do
      forRange (fun _ => aflMutateRound bytes bytesLen) start round
      return bytesLen) := by
  induction round generalizing start with
  | zero => rfl
  | succ round induction =>
      have first := drawn_operation_eq bytes bytesLen maxBytesLen
      rw [aflMutateRounds, forRange, ← bind_assoc, first, bind_assoc, bind_assoc]
      congr 1
      funext _
      rw [pure_bind]
      exact induction (start + 1)

theorem afl_mutate_havoc_at_eq (bytes bytesLenPtr maxBytesLen : Nat) :
    aflMutateHavocAt bytes bytesLenPtr maxBytesLen = (do
      aflMutateHavoc bytes bytesLenPtr
      return bytesLenPtr) := by
  unfold aflMutateHavocAt aflMutateHavoc
  rw [bind_assoc]
  congr 1
  funext drawn
  exact afl_mutate_rounds_eq bytes bytesLenPtr maxBytesLen _ 0

theorem interesting_byte_faultless (bytes bytesLen : Nat) (positive : 0 < bytesLen) :
    Faultless (setInterestingByte bytes bytesLen) := by
  apply faultless_bind faultless_rand
  intro _
  apply faultless_remainder_bind positive
  intro _ _
  apply faultless_bind faultless_rand
  intro drawn
  have inTable : drawn % interesting8.length < interesting8.length := Nat.mod_lt drawn (by decide)
  apply faultless_bind (faultless_lookup inTable)
  intro _
  exact faultless_save _ _

theorem interesting_word_faultless (bytes bytesLen : Nat) (pair : 2 ≤ bytesLen) :
    Faultless (setInterestingWord bytes bytesLen) := by
  apply faultless_bind faultless_rand
  intro _
  apply faultless_remainder_bind (Nat.sub_pos_of_lt pair)
  intro _ _
  apply faultless_bind faultless_rand
  intro drawn
  have inTable : drawn % interesting16.length < interesting16.length := Nat.mod_lt drawn (by decide)
  apply faultless_bind (faultless_lookup inTable)
  intro _
  exact faultless_save_word _ _ _

theorem interesting_dword_faultless (bytes bytesLen : Nat) (four : 4 ≤ bytesLen) :
    Faultless (setInterestingDword bytes bytesLen) := by
  apply faultless_bind faultless_rand
  intro _
  apply faultless_remainder_bind (Nat.sub_pos_of_lt four)
  intro _ _
  apply faultless_bind faultless_rand
  intro _
  apply faultless_bind faultless_rand
  intro drawn
  have inTable : drawn % interesting32.length < interesting32.length := Nat.mod_lt drawn (by decide)
  apply faultless_bind (faultless_lookup inTable)
  intro _
  apply faultless_if
  · intro _
    exact faultless_save_word _ _ _
  · intro _
    apply faultless_bind (faultless_save _ _)
    intro _
    apply faultless_bind (faultless_save _ _)
    intro _
    exact faultless_bind (faultless_save _ _) fun _ => faultless_save _ _

theorem combine_byte_faultless (combine : UInt8 → UInt8 → UInt8) (bytes bytesLen : Nat)
    (positive : 0 < bytesLen) : Faultless (combineByte combine bytes bytesLen) := by
  apply faultless_bind faultless_rand
  intro _
  apply faultless_remainder_bind positive
  intro _ _
  apply faultless_bind faultless_rand
  intro _
  exact faultless_bind (faultless_load _) fun _ => faultless_save _ _

theorem combine_word_faultless (combine : BitVec (8 * 2) → BitVec (8 * 2) → BitVec (8 * 2))
    (bytes bytesLen : Nat) (pair : 2 ≤ bytesLen) : Faultless (combineWord combine bytes bytesLen) := by
  apply faultless_bind faultless_rand
  intro _
  apply faultless_remainder_bind (Nat.sub_pos_of_lt pair)
  intro _ _
  apply faultless_bind faultless_rand
  intro _
  exact faultless_bind (faultless_load_word _ _) fun _ => faultless_save_word _ _ _

theorem afl_mutate_round_faultless (bytes bytesLen : Nat) :
    Faultless (aflMutateRound bytes bytesLen) := by
  apply faultless_bind faultless_rand
  intro drawn
  dsimp only
  split
  · apply faultless_whenever
    intro some
    have bits : 0 < bytesLen * 8 := by omega
    apply faultless_bind faultless_rand
    intro _
    apply faultless_remainder_bind bits
    intro _ _
    exact faultless_bind (faultless_load _) fun _ => faultless_save _ _
  · exact faultless_whenever fun some => interesting_byte_faultless _ _ (Nat.pos_of_ne_zero some)
  · exact faultless_whenever fun pair => interesting_word_faultless _ _ pair
  · exact faultless_whenever fun four => interesting_dword_faultless _ _ four
  · exact faultless_whenever fun some => combine_byte_faultless _ _ _ (Nat.pos_of_ne_zero some)
  · exact faultless_whenever fun pair => combine_word_faultless _ _ _ pair
  · exact faultless_whenever fun some => combine_byte_faultless _ _ _ (Nat.pos_of_ne_zero some)
  · exact faultless_whenever fun pair => combine_word_faultless _ _ _ pair
  · exact faultless_pure ()

theorem afl_mutate_havoc_faultless (bytes bytesLen : Nat) :
    Faultless (aflMutateHavoc bytes bytesLen) := by
  apply faultless_bind faultless_rand
  intro _
  exact faultless_for_range 0 fun _ _ => afl_mutate_round_faultless bytes bytesLen

theorem returns_inside {Value : Type} {program : Program Rand Value} {bytes bytesLen : Nat}
    (confined : Confined (region bytes bytesLen) (region bytes bytesLen) program)
    (faultless : Faultless program) (machine : Machine Rand) :
    ∃ value after, program machine = .ok value after ∧
      Within (region bytes bytesLen) (region bytes bytesLen) machine.store after.store := by
  obtain ⟨value, store, rest, run, within⟩ :=
    @Faultless.returns _ _ machine.store machine.draws _ faultless _ _ (confined machine.store)
  exact ⟨value, ⟨store, rest⟩, run, within⟩

/-- Whatever is drawn, both engines return, and read, write and change only bytes
of the region they are given. `mutate_havoc` leaves everything as it is if the
region is longer than its limit, and `afl_mutate_havoc` leaves the length behind
its pointer. -/
theorem havoc_engines_stay_inside (bytes bytesLen maxBytesLen : Nat) (machine : Machine Rand) :
    (∃ after, mutateHavoc bytes bytesLen maxBytesLen machine = .ok () after ∧
      Within (region bytes bytesLen) (region bytes bytesLen) machine.store after.store ∧
      (maxBytesLen < bytesLen → after = machine)) ∧
    ∃ after, aflMutateHavocAt bytes bytesLen maxBytesLen machine = .ok bytesLen after ∧
      Within (region bytes bytesLen) (region bytes bytesLen) machine.store after.store := by
  constructor
  · obtain ⟨_, after, run, within⟩ := returns_inside
      (havoc_confined bytes bytesLen maxBytesLen) (havoc_faultless bytes bytesLen maxBytesLen) machine
    refine ⟨after, run, within, ?_⟩
    intro long
    rw [mutateHavoc, if_pos long] at run
    cases run
    rfl
  · obtain ⟨_, after, run, within⟩ := returns_inside
      (afl_mutate_havoc_confined bytes bytesLen) (afl_mutate_havoc_faultless bytes bytesLen) machine
    refine ⟨after, ?_, within⟩
    rw [afl_mutate_havoc_at_eq, run_bind_ok run]
    rfl

/-- A run that ends with one byte of the region replaced and the others as they were. -/
def Replaces (bytes bytesLen index : Nat) (value : UInt8) (before after : Store) : Prop :=
  after.memory (bytes + index) = value ∧ ∀ other, other < bytesLen → other ≠ index →
    after.memory (bytes + other) = before.memory (bytes + other)

def Reachable (bytes bytesLen maxBytesLen index : Nat) (value : UInt8) (store : Store) : Prop :=
  ∃ draws after, mutateHavoc bytes bytesLen maxBytesLen ⟨store, draws⟩ = .ok () after ∧
    Replaces bytes bytesLen index value store after.store

theorem havoc_reaches {bytes bytesLen maxBytesLen index : Nat} (value : UInt8) (store : Store)
    (fits : bytesLen ≤ maxBytesLen) (narrow : maxBytesLen ≤ 255) (below : index < bytesLen)
    (pair : 2 ≤ bytesLen) : Reachable bytes bytesLen maxBytesLen index value store := by
  have possibly : Possibly (mutateHavoc bytes bytesLen maxBytesLen) store
      fun _ after => Replaces bytes bytesLen index value store after := by
    apply havoc_possibly_replaces bytes bytesLen maxBytesLen index value store fits pair below
      (by omega)
    constructor
    · exact Function.update_self ..
    · intro other _ different
      exact Function.update_of_ne (fun same => different (Nat.add_left_cancel same)) ..
  obtain ⟨draws, _, after, run, replaced⟩ := possibly.run
  exact ⟨draws, after, run, replaced⟩

theorem havoc_idle_on_one_byte (bytes maxBytesLen : Nat) (store : Store) :
    Ensures (mutateHavoc bytes 1 maxBytesLen) store (fun _ after => after = store)
      fun _ _ => False := by
  apply ensures_if
  · intro _
    exact ensures_pure rfl
  · intro _
    apply ensures_bind
    apply ensures_rand
    intro drawn _
    apply ensures_bind
    apply ensures_remainder
    · intro zero
      cases zero
    · intro _
      rw [Nat.mod_one]
      exact ensures_pure rfl

/-- Some stream of draws replaces a byte by any value exactly when the region has
two bytes or more, or the byte has that value already. -/
theorem single_byte_reachable_iff {bytes bytesLen maxBytesLen index : Nat} (value : UInt8)
    (store : Store) (fits : bytesLen ≤ maxBytesLen) (narrow : maxBytesLen ≤ 255)
    (below : index < bytesLen) :
    Reachable bytes bytesLen maxBytesLen index value store ↔
      2 ≤ bytesLen ∨ store.memory (bytes + index) = value := by
  constructor
  · rintro ⟨draws, after, run, replaced, -⟩
    rcases Nat.lt_or_ge bytesLen 2 with short | pair
    · have one : bytesLen = 1 := by omega
      subst one
      have same := (havoc_idle_on_one_byte bytes maxBytesLen store).returned run
      rw [same] at replaced
      exact .inr replaced
    · exact .inl pair
  · intro reaches
    rcases Nat.lt_or_ge bytesLen 2 with short | pair
    · have same := reaches.resolve_left (Nat.not_le.mpr short)
      obtain ⟨draws, _, after, run, idle⟩ :=
        (havoc_possibly_idle bytes bytesLen maxBytesLen store).run
      refine ⟨draws, after, run, ?_⟩
      rw [idle]
      exact ⟨same, fun _ _ _ => rfl⟩
    · exact havoc_reaches value store fits narrow below pair

/-- Two bytes of a region can be replaced one by one. -/
theorem pair_reachable : Reachable 0 2 255 1 7 ⟨fun _ => 0, []⟩ :=
  (single_byte_reachable_iff 7 ⟨fun _ => 0, []⟩ (by decide) (by decide) (by decide)).mpr
    (.inl (by decide))

/-- The only byte of a region is never replaced. -/
theorem single_byte_unreachable : ¬∀ (bytes bytesLen maxBytesLen index : Nat) (value : UInt8)
    (store : Store), bytesLen ≤ maxBytesLen → maxBytesLen ≤ 255 → index < bytesLen →
      Reachable bytes bytesLen maxBytesLen index value store := by
  intro always
  obtain ⟨draws, after, run, replaced, -⟩ :=
    always 0 1 255 0 1 ⟨fun _ => 0, []⟩ (by decide) (by decide) (by decide)
  have same := (havoc_idle_on_one_byte 0 255 ⟨fun _ => 0, []⟩).returned run
  rw [same] at replaced
  exact absurd replaced (by decide)

end Blueman.HavocEngines
