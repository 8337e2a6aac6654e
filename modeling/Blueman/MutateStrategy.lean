import Blueman.Library.ByteMachine
import Mathlib.Tactic.SplitIfs

/-!
# Havoc over a byte region

The helpers of `mutate_strategy.c`. A region is given by the address of its
first byte and its length; offsets `S` and widths `N` are in bits, as in the
source, and the 8-bit variables truncate where they are assigned. The source's
shifts by three and masks of low bits are written as `* 8`, `/ 8`, `% 8`. The
result about all helpers is the same: each stays inside the region it was given.
-/

namespace Blueman.MutateStrategy

open LittleEndian ByteMachine

set_option autoImplicit false

def randMax : Nat := 2147483647

/-- A result of `rand()`. -/
abbrev Rand := Fin (randMax + 1)

instance : Inhabited Rand := ⟨0, by decide⟩

def drawnOf (number : Nat) : Rand := ⟨number % (randMax + 1), Nat.mod_lt _ (Nat.succ_pos _)⟩

def rand : Program Rand Nat := do
  let result ← draw
  return result.val

theorem ensures_rand {store : Store} {post : Nat → Store → Prop} {crash : Fault → Store → Prop}
    (holds : ∀ drawn, drawn ≤ randMax → post drawn store) : Ensures rand store post crash :=
  ensures_bind (ensures_draw fun value =>
    ensures_pure (holds value.val (Nat.le_of_lt_succ value.isLt)))

theorem possibly_rand {store : Store} {post : Nat → Store → Prop} (drawn : Nat)
    (bound : drawn ≤ randMax) (holds : post drawn store) : Possibly rand store post :=
  possibly_bind (possibly_draw ⟨drawn, Nat.lt_succ_of_le bound⟩ (possibly_pure holds))

theorem returns_rand {store : Store} {draws : Stream' Rand}
    {goal : Nat → Store → Stream' Rand → Prop} (holds : goal draws.head.val store draws.tail) :
    Returns rand store draws goal :=
  returns_bind (returns_draw (returns_pure holds))

def bitsArr : List UInt8 :=
  [0b0, 0b10000000, 0b11000000, 0b11100000, 0b11110000, 0b11111000, 0b11111100, 0b11111110,
    0b11111111]

def interesting8 : List Int := [-128, -1, 0, 1, 16, 32, 64, 100, 127]

def interesting16 : List Int :=
  interesting8 ++ [-32768, -129, 128, 255, 256, 512, 1000, 1024, 4096, 32767]

def arithMax : Nat := 50

def mutateRandomByte (bytes bytesLen : Nat) : Program Rand Unit := do
  let rnd ← remainder (← rand) bytesLen
  let byte ← rand
  save (bytes + rnd % 256) (UInt8.ofNat byte)

def mutateRandBits (bytes bytesLen S N : Nat) : Program Rand Unit :=
  if N + S > bytesLen * 8 then pure ()
  else do
    let bits := bytes + S / 8
    let drawn ← rand
    let mask ← lookup bitsArr N
    let rndBits := UInt8.ofNat drawn &&& mask
    let old ← load bits
    save bits (old &&& ~~~(mask >>> UInt8.ofNat (S % 8)))
    let cleared ← load bits
    save bits (cleared ||| (rndBits >>> UInt8.ofNat (S % 8)))

def mutateRandomBytesInsert (bytes bytesLen S N : Nat) : Program Rand Unit :=
  if N + S > bytesLen * 8 then pure ()
  else forRange (fun i => do
    let byte ← rand
    save (bytes + (i + S / 8)) (UInt8.ofNat byte)) 0 (N / 8)

def mutateArithmetic (bytes bytesLen S N : Nat) : Program Rand Unit :=
  if N + S > bytesLen * 8 then pure ()
  else do
    let rnd := (← rand) % arithMax + 1
    let isAdd := (← rand) % 2
    if N / 8 = 2 then do
      let word ← loadWord 2 (bytes + S / 8)
      saveWord 2 (bytes + S / 8)
        (if isAdd ≠ 0 then word + BitVec.ofNat 16 rnd else word - BitVec.ofNat 16 rnd)
    else do
      let byte ← load (bytes + S / 8)
      save (bytes + S / 8) (if isAdd ≠ 0 then byte + UInt8.ofNat rnd else byte - UInt8.ofNat rnd)

def mutateBitsFlip (bytes bytesLen S N : Nat) : Program Rand Unit :=
  if N + S > bytesLen * 8 then pure ()
  else do
    let mask ← lookup bitsArr N
    let old ← load (bytes + S / 8)
    save (bytes + S / 8) (old ^^^ (mask >>> UInt8.ofNat (S % 8)))

def mutateInterest (bytes bytesLen S N : Nat) : Program Rand Unit :=
  if N + S > bytesLen * 8 then pure ()
  else if N / 8 = 2 then do
    let value ← lookup interesting16 ((← rand) % interesting16.length)
    saveWord 2 (bytes + S / 8) (BitVec.ofInt (8 * 2) value)
  else do
    let value ← lookup interesting8 ((← rand) % interesting8.length)
    save (bytes + S / 8) (UInt8.ofInt value)

/-- One turn of the loop of `mutate_havoc`. `N` is a `uint8_t`: it is truncated
when the byte count is stored in it and again when that count becomes bits. -/
def mutateHavocRound (bytes bytesLen : Nat) : Program Rand Unit := do
  let operation := (← rand) % 6
  match operation with
  | 0 => mutateRandomByte bytes bytesLen
  | 1 => do
      let S ← remainder (← rand) (bytesLen * 8)
      let N := (← rand) % 8 + 1
      mutateRandBits bytes bytesLen S N
  | 2 => do
      let start ← remainder (← rand) bytesLen
      let run ← remainder (← rand) (bytesLen - start)
      mutateRandomBytesInsert bytes bytesLen (start * 8) ((run + 1) % 256 * 8 % 256)
  | 3 => do
      let start ← remainder (← rand) bytesLen
      let N := ((← rand) % 2 + 1) * 8
      mutateArithmetic bytes bytesLen (start * 8) N
  | 4 => do
      let S ← remainder (← rand) (bytesLen * 8)
      let N := (← rand) % 8 + 1
      mutateBitsFlip bytes bytesLen S N
  | 5 => do
      let start ← remainder (← rand) bytesLen
      let N := ((← rand) % 2 + 1) * 8
      mutateInterest bytes bytesLen (start * 8) N
  | _ => pure ()

def mutateHavoc (bytes bytesLen maxBytesLen : Nat) : Program Rand Unit :=
  if bytesLen > maxBytesLen then pure ()
  else do
    let round ← remainder (← rand) (bytesLen / 2 + 1)
    forRange (fun _ => mutateHavocRound bytes bytesLen) 0 round

/-- The region of `length` bytes from `first` on. -/
abbrev region (first length : Nat) : Set Nat := Set.Ico first (first + length)

theorem region_subset {first length outer total : Nat} (starts : outer ≤ first)
    (ends : first + length ≤ outer + total) : region first length ⊆ region outer total :=
  Set.Ico_subset_Ico starts ends

theorem confined_rand {reach changed : Set Nat} : Confined reach changed rand :=
  confined_bind confined_draw fun _ => confined_pure _

theorem random_byte_confined (bytes bytesLen : Nat) :
    Confined (region bytes bytesLen) (region bytes bytesLen) (mutateRandomByte bytes bytesLen) := by
  refine confined_bind confined_rand fun drawn => confined_remainder_bind fun rnd bound => ?_
  apply confined_bind confined_rand
  intro byte
  have inside : bytes + rnd % 256 ∈ region bytes bytesLen := by
    have smaller := Nat.mod_le rnd 256
    exact Set.mem_Ico.mpr ⟨by omega, by omega⟩
  exact confined_save _ inside inside

theorem rand_bits_confined (bytes bytesLen S N : Nat) (positive : 0 < N) :
    Confined (region bytes bytesLen) (region bytes bytesLen)
      (mutateRandBits bytes bytesLen S N) := by
  apply confined_if (fun _ => confined_pure ())
  intro fits
  have inside : bytes + S / 8 ∈ region bytes bytesLen := Set.mem_Ico.mpr ⟨by omega, by omega⟩
  apply confined_bind confined_rand
  intro drawn
  apply confined_bind (confined_lookup _ _)
  intro mask
  apply confined_bind (confined_load inside)
  intro old
  apply confined_bind (confined_save _ inside inside)
  intro _
  apply confined_bind (confined_load inside)
  intro cleared
  exact confined_save _ inside inside

theorem random_bytes_insert_confined (bytes bytesLen S N : Nat) :
    Confined (region bytes bytesLen) (region bytes bytesLen)
      (mutateRandomBytesInsert bytes bytesLen S N) := by
  apply confined_if (fun _ => confined_pure ())
  intro fits
  apply confined_for_range
  intro i _ below
  have inside : bytes + (i + S / 8) ∈ region bytes bytesLen :=
    Set.mem_Ico.mpr ⟨by omega, by omega⟩
  exact confined_bind confined_rand fun byte => confined_save _ inside inside

theorem arithmetic_confined (bytes bytesLen S N : Nat) (bits : 8 ≤ N) :
    Confined (region bytes bytesLen) (region bytes bytesLen)
      (mutateArithmetic bytes bytesLen S N) := by
  apply confined_if (fun _ => confined_pure ())
  intro fits
  refine confined_bind confined_rand fun value => confined_bind confined_rand fun sign => ?_
  refine confined_if (fun word => ?_) fun byte => ?_
  · have inside (index : Nat) (inWord : index < 2) :
        bytes + S / 8 + index ∈ region bytes bytesLen := Set.mem_Ico.mpr ⟨by omega, by omega⟩
    exact confined_bind (confined_load_word inside) fun _ => confined_save_word _ inside inside
  · have inside : bytes + S / 8 ∈ region bytes bytesLen := Set.mem_Ico.mpr ⟨by omega, by omega⟩
    exact confined_bind (confined_load inside) fun _ => confined_save _ inside inside

theorem bits_flip_confined (bytes bytesLen S N : Nat) (positive : 0 < N) :
    Confined (region bytes bytesLen) (region bytes bytesLen)
      (mutateBitsFlip bytes bytesLen S N) := by
  apply confined_if (fun _ => confined_pure ())
  intro fits
  have inside : bytes + S / 8 ∈ region bytes bytesLen := Set.mem_Ico.mpr ⟨by omega, by omega⟩
  apply confined_bind (confined_lookup _ _)
  intro mask
  exact confined_bind (confined_load inside) fun old => confined_save _ inside inside

theorem interest_confined (bytes bytesLen S N : Nat) (bits : 8 ≤ N) :
    Confined (region bytes bytesLen) (region bytes bytesLen)
      (mutateInterest bytes bytesLen S N) := by
  apply confined_if (fun _ => confined_pure ())
  intro fits
  refine confined_if (fun word => ?_) fun byte => ?_
  · refine confined_bind confined_rand fun _ => confined_bind (confined_lookup _ _) fun value => ?_
    have inside (index : Nat) (inWord : index < 2) :
        bytes + S / 8 + index ∈ region bytes bytesLen := Set.mem_Ico.mpr ⟨by omega, by omega⟩
    exact confined_save_word _ inside inside
  · refine confined_bind confined_rand fun _ => confined_bind (confined_lookup _ _) fun value => ?_
    have inside : bytes + S / 8 ∈ region bytes bytesLen := Set.mem_Ico.mpr ⟨by omega, by omega⟩
    exact confined_save _ inside inside

theorem havoc_round_confined (bytes bytesLen : Nat) :
    Confined (region bytes bytesLen) (region bytes bytesLen) (mutateHavocRound bytes bytesLen) := by
  apply confined_bind confined_rand
  intro drawn
  dsimp only
  split
  · exact random_byte_confined bytes bytesLen
  · refine confined_bind confined_rand fun _ => confined_bind (confined_remainder _ _) fun S => ?_
    exact confined_bind confined_rand fun _ =>
      rand_bits_confined bytes bytesLen S _ (Nat.succ_pos _)
  · refine confined_bind confined_rand fun _ => confined_bind (confined_remainder _ _) fun _ => ?_
    refine confined_bind confined_rand fun _ => confined_bind (confined_remainder _ _) fun _ => ?_
    exact random_bytes_insert_confined bytes bytesLen _ _
  · refine confined_bind confined_rand fun _ => confined_bind (confined_remainder _ _) fun _ => ?_
    exact confined_bind confined_rand fun _ =>
      arithmetic_confined bytes bytesLen _ _ (by omega)
  · refine confined_bind confined_rand fun _ => confined_bind (confined_remainder _ _) fun S => ?_
    exact confined_bind confined_rand fun _ =>
      bits_flip_confined bytes bytesLen S _ (Nat.succ_pos _)
  · refine confined_bind confined_rand fun _ => confined_bind (confined_remainder _ _) fun _ => ?_
    exact confined_bind confined_rand fun _ =>
      interest_confined bytes bytesLen _ _ (by omega)
  · exact confined_pure ()

/-- Whatever its length and limit, the havoc loop reads, writes and changes
only bytes of the region it is given. -/
theorem havoc_confined (bytes bytesLen maxBytesLen : Nat) :
    Confined (region bytes bytesLen) (region bytes bytesLen)
      (mutateHavoc bytes bytesLen maxBytesLen) := by
  apply confined_if (fun _ => confined_pure ())
  intro _
  refine confined_bind confined_rand fun _ => confined_bind (confined_remainder _ _) fun round => ?_
  exact confined_for_range fun _ _ _ => havoc_round_confined bytes bytesLen

theorem faultless_rand : Faultless rand :=
  faultless_bind faultless_draw fun _ => faultless_pure _

theorem random_byte_faultless (bytes bytesLen : Nat) (positive : 0 < bytesLen) :
    Faultless (mutateRandomByte bytes bytesLen) :=
  faultless_bind faultless_rand fun _ => faultless_remainder_bind positive fun _ _ =>
    faultless_bind faultless_rand fun _ => faultless_save _ _

theorem rand_bits_faultless (bytes bytesLen S N : Nat) (bits : N ≤ 8) :
    Faultless (mutateRandBits bytes bytesLen S N) := by
  have inTable : N < bitsArr.length := Nat.lt_succ_of_le bits
  apply faultless_if (fun _ => faultless_pure ())
  intro _
  refine faultless_bind faultless_rand fun _ => faultless_bind (faultless_lookup inTable) fun _ => ?_
  refine faultless_bind (faultless_load _) fun _ => faultless_bind (faultless_save _ _) fun _ => ?_
  exact faultless_bind (faultless_load _) fun _ => faultless_save _ _

theorem random_bytes_insert_faultless (bytes bytesLen S N : Nat) :
    Faultless (mutateRandomBytesInsert bytes bytesLen S N) :=
  faultless_if (fun _ => faultless_pure ()) fun _ =>
    faultless_for_range 0 fun _ _ => faultless_bind faultless_rand fun _ => faultless_save _ _

theorem arithmetic_faultless (bytes bytesLen S N : Nat) :
    Faultless (mutateArithmetic bytes bytesLen S N) := by
  apply faultless_if (fun _ => faultless_pure ())
  intro _
  refine faultless_bind faultless_rand fun _ => faultless_bind faultless_rand fun _ => ?_
  refine faultless_if (fun _ => ?_) fun _ => ?_
  · exact faultless_bind (faultless_load_word _ _) fun _ => faultless_save_word _ _ _
  · exact faultless_bind (faultless_load _) fun _ => faultless_save _ _

theorem bits_flip_faultless (bytes bytesLen S N : Nat) (bits : N ≤ 8) :
    Faultless (mutateBitsFlip bytes bytesLen S N) := by
  have inTable : N < bitsArr.length := Nat.lt_succ_of_le bits
  apply faultless_if (fun _ => faultless_pure ())
  intro _
  apply faultless_bind (faultless_lookup inTable)
  intro _
  exact faultless_bind (faultless_load _) fun _ => faultless_save _ _

theorem interest_faultless (bytes bytesLen S N : Nat) :
    Faultless (mutateInterest bytes bytesLen S N) := by
  refine faultless_if (fun _ => faultless_pure ()) fun _ => faultless_if (fun _ => ?_) fun _ => ?_
  · apply faultless_bind faultless_rand
    intro drawn
    exact faultless_bind (faultless_lookup (Nat.mod_lt drawn (by decide)))
      fun _ => faultless_save_word _ _ _
  · apply faultless_bind faultless_rand
    intro drawn
    exact faultless_bind (faultless_lookup (Nat.mod_lt drawn (by decide)))
      fun _ => faultless_save _ _

theorem havoc_round_faultless (bytes bytesLen : Nat) (positive : 0 < bytesLen) :
    Faultless (mutateHavocRound bytes bytesLen) := by
  have bits : 0 < bytesLen * 8 := by omega
  apply faultless_bind faultless_rand
  intro drawn
  dsimp only
  split
  · exact random_byte_faultless bytes bytesLen positive
  · refine faultless_bind faultless_rand fun _ => faultless_remainder_bind bits fun S _ => ?_
    exact faultless_bind faultless_rand fun width =>
      rand_bits_faultless bytes bytesLen S _ (Nat.mod_lt width (by decide))
  · refine faultless_bind faultless_rand fun _ =>
      faultless_remainder_bind positive fun start below => faultless_bind faultless_rand fun _ => ?_
    exact faultless_remainder_bind (Nat.sub_pos_of_lt below) fun _ _ =>
      random_bytes_insert_faultless bytes bytesLen _ _
  · refine faultless_bind faultless_rand fun _ => faultless_remainder_bind positive fun _ _ => ?_
    exact faultless_bind faultless_rand fun _ => arithmetic_faultless bytes bytesLen _ _
  · refine faultless_bind faultless_rand fun _ => faultless_remainder_bind bits fun S _ => ?_
    exact faultless_bind faultless_rand fun width =>
      bits_flip_faultless bytes bytesLen S _ (Nat.mod_lt width (by decide))
  · refine faultless_bind faultless_rand fun _ => faultless_remainder_bind positive fun _ _ => ?_
    exact faultless_bind faultless_rand fun _ => interest_faultless bytes bytesLen _ _
  · exact faultless_pure ()

/-- A region too short for a round gets none, so every remainder of a round has
a positive divisor. -/
theorem havoc_faultless (bytes bytesLen maxBytesLen : Nat) :
    Faultless (mutateHavoc bytes bytesLen maxBytesLen) := by
  refine faultless_if (fun _ => faultless_pure ()) fun _ => faultless_bind faultless_rand fun _ => ?_
  apply faultless_remainder_bind (Nat.succ_pos _)
  intro round below
  exact faultless_for_range 0 fun some _ => havoc_round_faultless bytes bytesLen (by omega)

theorem random_byte_possibly {store : Store} {bytes bytesLen : Nat} (index : Nat) (value : UInt8)
    (below : index < bytesLen) (narrow : index < 256) {post : Unit → Store → Prop}
    (holds : post () (store.put (bytes + index) value)) :
    Possibly (mutateRandomByte bytes bytesLen) store post := by
  have inRange : index ≤ randMax := Nat.le_trans (Nat.le_of_lt narrow) (by decide)
  have drawable : value.toNat ≤ randMax := Nat.le_trans (Nat.le_of_lt value.toNat_lt) (by decide)
  refine possibly_bind (possibly_rand index inRange ?_)
  refine possibly_bind (possibly_remainder (Nat.zero_lt_of_lt below) ?_)
  refine possibly_bind (possibly_rand value.toNat drawable (possibly_save ?_))
  rwa [Nat.mod_eq_of_lt below, Nat.mod_eq_of_lt narrow, UInt8.ofNat_toNat]

theorem havoc_possibly_idle (bytes bytesLen maxBytesLen : Nat) (store : Store) :
    Possibly (mutateHavoc bytes bytesLen maxBytesLen) store fun _ after => after = store := by
  refine possibly_if (fun _ => possibly_pure rfl) fun _ => ?_
  refine possibly_bind (possibly_rand 0 (Nat.zero_le _) ?_)
  refine possibly_bind (possibly_remainder (Nat.succ_pos _) ?_)
  rw [Nat.zero_mod]
  exact possibly_pure rfl

theorem havoc_possibly_replaces (bytes bytesLen maxBytesLen index : Nat) (value : UInt8)
    (store : Store) {post : Unit → Store → Prop} (fits : bytesLen ≤ maxBytesLen)
    (pair : 2 ≤ bytesLen) (below : index < bytesLen) (narrow : index < 256)
    (holds : post () (store.put (bytes + index) value)) :
    Possibly (mutateHavoc bytes bytesLen maxBytesLen) store post := by
  apply possibly_if (fun long => absurd long (Nat.not_lt.mpr fits))
  intro _
  refine possibly_bind (possibly_rand 1 (by decide) ?_)
  refine possibly_bind (possibly_remainder (Nat.succ_pos _) ?_)
  rw [Nat.mod_eq_of_lt (by omega)]
  refine possibly_bind (possibly_bind (possibly_rand 0 (Nat.zero_le _) ?_))
  exact random_byte_possibly index value below narrow (possibly_pure holds)

end Blueman.MutateStrategy
