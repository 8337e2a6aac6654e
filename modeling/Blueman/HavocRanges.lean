import Blueman.MutateStrategy

/-!
# The ranges the havoc helpers write

The two helpers on bit ranges compare in 32 bits, and their regions are of any
length here: below 2 ^ 29 bytes nothing wraps, and they are the helpers of
`MutateStrategy`. Bits are numbered from the most significant one on, over the
whole memory. A range that reaches into a second byte loses what lies there, and
a run of 32 bytes or more loses whole blocks of 32.
-/

namespace Blueman.HavocRanges

open LittleEndian ByteMachine MutateStrategy

set_option autoImplicit false

/-- `N + S > (bytes_len << 3)`, where both sides are 32 bits wide. -/
abbrev Refused (bytesLen S N : Nat) : Prop := (N + S) % 2 ^ 32 > bytesLen * 8 % 2 ^ 32

def mutateRandBits (bytes bytesLen S N : Nat) : Program Rand Unit :=
  if Refused bytesLen S N then pure ()
  else do
    let bits := bytes + S / 8
    let drawn ← rand
    let mask ← lookup bitsArr N
    let rndBits := UInt8.ofNat drawn &&& mask
    let old ← load bits
    save bits (old &&& ~~~(mask >>> UInt8.ofNat (S % 8)))
    let cleared ← load bits
    save bits (cleared ||| (rndBits >>> UInt8.ofNat (S % 8)))

def mutateBitsFlip (bytes bytesLen S N : Nat) : Program Rand Unit :=
  if Refused bytesLen S N then pure ()
  else do
    let mask ← lookup bitsArr N
    let old ← load (bytes + S / 8)
    save (bytes + S / 8) (old ^^^ (mask >>> UInt8.ofNat (S % 8)))

theorem refused_iff {bytesLen S N : Nat} (short : bytesLen < 2 ^ 29) (fits : N + S < 2 ^ 32) :
    Refused bytesLen S N ↔ N + S > bytesLen * 8 := by
  have total : bytesLen * 8 < 2 ^ 32 := by omega
  rw [Refused, Nat.mod_eq_of_lt fits, Nat.mod_eq_of_lt total]

theorem bit_helpers_eq (bytes : Nat) {bytesLen S N : Nat} (short : bytesLen < 2 ^ 29)
    (fits : N + S < 2 ^ 32) :
    mutateRandBits bytes bytesLen S N = MutateStrategy.mutateRandBits bytes bytesLen S N ∧
      mutateBitsFlip bytes bytesLen S N = MutateStrategy.mutateBitsFlip bytes bytesLen S N := by
  have same := refused_iff short fits
  constructor
  · unfold mutateRandBits MutateStrategy.mutateRandBits
    simp only [same]
  · unfold mutateBitsFlip MutateStrategy.mutateBitsFlip
    simp only [same]

/-- Bit `bit` of the memory is one of the `N` from bit `S` of the buffer on. -/
abbrev InRange (bytes S N bit : Nat) : Prop := 8 * bytes + S ≤ bit ∧ bit < 8 * bytes + S + N

/-- The helpers act on the `N` bits, on all of them and on no other. -/
structure ActsOnRange (bytes bytesLen S N : Nat) (store : Store) : Prop where
  flips : ∀ draws, Returns (mutateBitsFlip bytes bytesLen S N) store draws fun _ after _ =>
    ∀ bit, bitAt after.memory bit =
      if InRange bytes S N bit then !bitAt store.memory bit else bitAt store.memory bit
  keeps : ∀ draws, Returns (mutateRandBits bytes bytesLen S N) store draws fun _ after _ =>
    ∀ bit, ¬InRange bytes S N bit → bitAt after.memory bit = bitAt store.memory bit
  sets : ∀ value : BitVec N, ∃ draws,
    Returns (mutateRandBits bytes bytesLen S N) store draws fun _ after _ =>
      ∀ index, index < N → bitAt after.memory (8 * bytes + S + index) = value.getMsbD index

theorem mask_bit {N : Nat} (width : N ≤ 8) :
    ∃ mask, bitsArr[N]? = some mask ∧
      ∀ index, index < 8 → mask.toBitVec.getMsbD index = decide (index < N) := by
  have inTable : N < bitsArr.length := Nat.lt_succ_of_le width
  refine ⟨bitsArr[N], List.getElem?_eq_getElem inTable, ?_⟩
  have table : ∀ N (inTable : N < bitsArr.length) index, index < 8 →
      bitsArr[N].toBitVec.getMsbD index = decide (index < N) := by decide
  exact table N inTable

section

variable {bytes bytesLen S N : Nat} {store : Store}

/-- One byte is written, and of its bits those are inverted that the range has in
the first byte. -/
theorem bits_flip_returns (width : N ≤ 8) (taken : ¬Refused bytesLen S N) (draws : Stream' Rand) :
    Returns (mutateBitsFlip bytes bytesLen S N) store draws fun _ after _ =>
      ∀ bit, bitAt after.memory bit =
        if bit / 8 = bytes + S / 8 ∧ S % 8 ≤ bit % 8 ∧ bit % 8 < S % 8 + N
        then !bitAt store.memory bit else bitAt store.memory bit := by
  obtain ⟨mask, found, ones⟩ := mask_bit width
  rw [mutateBitsFlip, if_neg taken, lookup_eq found, pure_bind]
  apply returns_bind
  apply returns_load
  apply returns_save
  intro bit
  have inByte : bit % 8 < 8 := Nat.mod_lt bit (by decide)
  have shift : S % 8 < 8 := Nat.mod_lt S (by decide)
  change bitAt (Function.update store.memory _ _) bit = _
  rw [bit_at_update]
  have bits : (decide (S % 8 ≤ bit % 8) && decide (bit % 8 - S % 8 < N)) =
      decide (S % 8 ≤ bit % 8 ∧ bit % 8 < S % 8 + N) := by
    rw [← Bool.decide_and]
    apply decide_eq_decide.mpr
    omega
  by_cases same : bit / 8 = bytes + S / 8
  · have old : (store.memory (bit / 8)).toBitVec.getMsbD (bit % 8) = bitAt store.memory bit := rfl
    rw [if_pos same, ← same, UInt8.toBitVec_xor, BitVec.getMsbD_xor,
      shifted_bit mask _ _ shift inByte, ones _ (by omega), bits, old]
    by_cases inside : S % 8 ≤ bit % 8 ∧ bit % 8 < S % 8 + N
    · simp [inside]
    · simp [inside]
  · rw [if_neg same, if_neg fun both => same both.1]

/-- Outside these bits the byte keeps what it has, and on them it has the first
bits that are drawn. -/
theorem rand_bits_returns (width : N ≤ 8) (taken : ¬Refused bytesLen S N) (draws : Stream' Rand) :
    Returns (mutateRandBits bytes bytesLen S N) store draws fun _ after _ =>
      ∀ bit, bitAt after.memory bit =
        if bit / 8 = bytes + S / 8 ∧ S % 8 ≤ bit % 8 ∧ bit % 8 < S % 8 + N
        then (UInt8.ofNat draws.head.val).toBitVec.getMsbD (bit % 8 - S % 8)
        else bitAt store.memory bit := by
  obtain ⟨mask, found, ones⟩ := mask_bit width
  rw [mutateRandBits, if_neg taken, lookup_eq found]
  apply returns_bind
  apply returns_rand
  rw [pure_bind]
  apply returns_bind
  apply returns_load
  apply returns_bind
  apply returns_save
  apply returns_bind
  apply returns_load
  apply returns_save
  intro bit
  have inByte : bit % 8 < 8 := Nat.mod_lt bit (by decide)
  have shift : S % 8 < 8 := Nat.mod_lt S (by decide)
  change bitAt (Function.update (Function.update store.memory _ _) _ (_ ||| _)) bit = _
  rw [Function.update_idem, bit_at_update]
  by_cases same : bit / 8 = bytes + S / 8
  · have old : (store.memory (bit / 8)).toBitVec.getMsbD (bit % 8) = bitAt store.memory bit := rfl
    have below : bit % 8 - S % 8 < 8 := by omega
    rw [if_pos same, ← same]
    simp only [Store.put, Store.touch, Function.update_self, UInt8.toBitVec_or, UInt8.toBitVec_and,
      UInt8.toBitVec_not, BitVec.getMsbD_or, BitVec.getMsbD_and, BitVec.getMsbD_not, inByte,
      decide_true, Bool.true_and, shifted_bit _ _ _ shift inByte, ones _ below, old]
    by_cases lower : S % 8 ≤ bit % 8
    · by_cases upper : bit % 8 - S % 8 < N
      · have inside : bit % 8 < S % 8 + N := by omega
        simp [lower, upper, inside]
      · have outside : ¬bit % 8 < S % 8 + N := by omega
        simp [upper, outside]
    · simp [lower]
  · rw [if_neg same, if_neg fun both => same both.1]

theorem in_range_iff (oneByte : S % 8 + N ≤ 8) (bit : Nat) :
    InRange bytes S N bit ↔ bit / 8 = bytes + S / 8 ∧ S % 8 ≤ bit % 8 ∧ bit % 8 < S % 8 + N := by
  rw [InRange]
  omega

/-- What the draw has to be for the first `N` bits of its byte to be the value. -/
theorem drawn_bit (width : N ≤ 8) (value : BitVec N) (index : Nat) :
    (UInt8.ofNat (value.setWidth 8 <<< (8 - N)).toNat).toBitVec.getMsbD index =
      value.getMsbD index := by
  have byte : UInt8.ofNat (value.setWidth 8 <<< (8 - N)).toNat =
      UInt8.ofBitVec (value.setWidth 8 <<< (8 - N)) := by
    apply UInt8.toNat_inj.mp
    rw [UInt8.toNat_ofNat']
    exact Nat.mod_eq_of_lt (BitVec.isLt _)
  have place : index + (8 - N) + N - 8 = index := by omega
  have reached : 8 - N ≤ index + (8 - N) := Nat.le_add_left _ _
  rw [byte, UInt8.toBitVec_ofBitVec, BitVec.getMsbD_shiftLeft, BitVec.getMsbD_setWidth, place]
  simp only [reached, decide_true, Bool.true_and]

theorem acts_taken (positive : 1 ≤ N) (acts : ActsOnRange bytes bytesLen S N store) :
    ¬Refused bytesLen S N := by
  intro refused
  have flipped := acts.flips (Stream'.const default)
  rw [mutateBitsFlip, if_pos refused] at flipped
  have first : InRange bytes S N (8 * bytes + S) := ⟨Nat.le_refl _, by omega⟩
  have inverted := flipped.returned rfl (8 * bytes + S)
  rw [if_pos first] at inverted
  exact (Bool.eq_not_self _).mp inverted

theorem acts_one_byte (width : N ≤ 8) (taken : ¬Refused bytesLen S N)
    (acts : ActsOnRange bytes bytesLen S N store) : S % 8 + N ≤ 8 := by
  by_contra second
  have lost : InRange bytes S N (8 * (bytes + S / 8 + 1)) := by
    rw [InRange]
    omega
  obtain ⟨_, after, _, run, one⟩ := bits_flip_returns width taken (Stream'.const default)
  have inverted := (acts.flips (Stream'.const default)).returned run (8 * (bytes + S / 8 + 1))
  rw [one, if_pos lost, if_neg (by omega)] at inverted
  exact (Bool.eq_not_self _).mp inverted

theorem acts_within_byte (width : N ≤ 8) (oneByte : S % 8 + N ≤ 8)
    (taken : ¬Refused bytesLen S N) : ActsOnRange bytes bytesLen S N store := by
  have sameBits := @in_range_iff bytes S N oneByte
  constructor
  · intro draws
    apply (bits_flip_returns width taken draws).mono
    intro _ after _ bits bit
    rw [bits]
    simp only [sameBits]
  · intro draws
    apply (rand_bits_returns width taken draws).mono
    intro _ after _ bits bit outside
    rw [bits, if_neg (mt (sameBits bit).mpr outside)]
  · intro value
    let drawn := drawnOf (value.setWidth 8 <<< (8 - N)).toNat
    refine ⟨Stream'.const drawn, ?_⟩
    apply (rand_bits_returns width taken _).mono
    intro _ after _ bits index inside
    have head : (Stream'.const drawn).head.val = (value.setWidth 8 <<< (8 - N)).toNat :=
      Nat.mod_eq_of_lt (Nat.lt_trans (BitVec.isLt _) (by decide))
    have offset : (8 * bytes + S + index) % 8 - S % 8 = index := by omega
    rw [bits, if_pos (by omega), offset, head]
    exact drawn_bit width value index

/-- The helpers act on the whole range exactly if it lies within one byte, as
long as the test lets it through. -/
theorem acts_on_range_iff (positive : 1 ≤ N) (width : N ≤ 8) :
    ActsOnRange bytes bytesLen S N store ↔ S % 8 + N ≤ 8 ∧ ¬Refused bytesLen S N := by
  constructor
  · intro acts
    have taken := acts_taken positive acts
    exact ⟨acts_one_byte width taken acts, taken⟩
  · intro condition
    exact acts_within_byte width condition.1 condition.2

/-- The low four bits of a byte. -/
theorem low_nibble_acts : ActsOnRange 0 2 4 4 ⟨fun _ => 0, []⟩ :=
  (acts_on_range_iff (by decide) (by decide)).mpr (by decide)

/-- Of two bits on either side of a byte boundary the second one stays. -/
theorem second_byte_unflipped : ¬ActsOnRange 0 2 7 2 ⟨fun _ => 0, []⟩ := by
  intro acts
  have flipped := (acts.flips (Stream'.const default)).returned rfl 8
  exact absurd flipped (by decide)

end

/-- The values are written from `first` on, one after the other, and nothing else. -/
structure Overwrites (first : Nat) (values : List UInt8) (before after : Store) : Prop where
  written : ∀ index (inside : index < values.length), after.memory (first + index) = values[index]
  kept : ∀ position, position < first ∨ first + values.length ≤ position →
    after.memory position = before.memory position
  touched : after.touched = (List.range' first values.length).reverse ++ before.touched

/-- The bytes that so many draws give. -/
def drawnBytes (count : Nat) (draws : Stream' Rand) : List UInt8 :=
  (draws.take count).map fun drawn => UInt8.ofNat drawn.val

theorem drawn_bytes_length (count : Nat) (draws : Stream' Rand) :
    (drawnBytes count draws).length = count := by
  rw [drawnBytes, List.length_map, Stream'.length_take]

theorem overwrites_nil (first : Nat) (store : Store) : Overwrites first [] store store :=
  ⟨fun _ inside => absurd inside (Nat.not_lt_zero _), fun _ _ => rfl, rfl⟩

theorem overwrites_cons {first : Nat} {value : UInt8} {values : List UInt8} {before after : Store}
    (later : Overwrites (first + 1) values (before.put first value) after) :
    Overwrites first (value :: values) before after := by
  constructor
  · intro index inside
    cases index with
    | zero =>
        rw [Nat.add_zero, later.kept first (.inl (Nat.lt_succ_self first))]
        exact Function.update_self _ _ _
    | succ index =>
        have place : first + (index + 1) = first + 1 + index := by omega
        rw [place, later.written index (Nat.lt_of_succ_lt_succ inside)]
        rfl
  · intro position outside
    rw [List.length_cons] at outside
    rw [later.kept position (by omega)]
    exact Function.update_of_ne (by omega) _ _
  · rw [later.touched, List.length_cons, List.range'_succ, List.reverse_cons, List.append_assoc]
    rfl

/-- The loop of `mutate_random_bytes_insert`, from any of its turns on. -/
theorem insert_loop_returns (bytes offset start count : Nat) (store : Store)
    (draws : Stream' Rand) :
    Returns (forRange (fun i => do
        let byte ← rand
        save (bytes + (i + offset)) (UInt8.ofNat byte)) start count) store draws
      fun _ after _ => Overwrites (bytes + (start + offset)) (drawnBytes count draws) store after := by
  induction count generalizing start store draws with
  | zero => exact returns_pure (overwrites_nil _ store)
  | succ count induction =>
      apply returns_bind
      apply returns_bind
      apply returns_rand
      apply returns_save
      apply (induction (start + 1) _ draws.tail).mono
      intro _ after _ later
      have place : bytes + (start + 1 + offset) = bytes + (start + offset) + 1 := by omega
      rw [place] at later
      exact overwrites_cons later

/-- `(rand() % bytes_len)`, the byte a run starts at. -/
def runStart (bytesLen : Nat) (draws : Stream' Rand) : Nat := draws.tail.head.val % bytesLen

/-- `rand() % (bytes_len - (S >> 3)) + 1`, before it becomes a number of bits. -/
def runLength (bytesLen : Nat) (draws : Stream' Rand) : Nat :=
  draws.tail.tail.head.val % (bytesLen - runStart bytesLen draws) + 1

/-- A turn in case 2. The bits of a run are counted in eight bits, which keep its
length modulo 32. -/
theorem havoc_run_returns {bytes bytesLen : Nat} {store : Store} {draws : Stream' Rand}
    (operation : draws.head.val % 6 = 2) (positive : 1 ≤ bytesLen) (bound : bytesLen ≤ 255) :
    Returns (mutateHavocRound bytes bytesLen) store draws fun _ after _ =>
      Overwrites (bytes + runStart bytesLen draws)
        (drawnBytes (runLength bytesLen draws % 32) draws.tail.tail.tail) store after := by
  have inside : runStart bytesLen draws < bytesLen := Nat.mod_lt _ positive
  have rest : runLength bytesLen draws ≤ bytesLen - runStart bytesLen draws :=
    Nat.mod_lt _ (Nat.sub_pos_of_lt inside)
  apply returns_bind
  apply returns_rand
  rw [operation]
  apply returns_bind
  apply returns_rand
  apply returns_bind
  apply returns_remainder positive
  apply returns_bind
  apply returns_rand
  apply returns_bind
  apply returns_remainder (Nat.sub_pos_of_lt inside)
  change Returns (mutateRandomBytesInsert bytes bytesLen (runStart bytesLen draws * 8)
    (runLength bytesLen draws % 256 * 8 % 256)) _ _ _
  have fits : ¬runLength bytesLen draws % 256 * 8 % 256 + runStart bytesLen draws * 8 > bytesLen * 8 := by
    omega
  have count : runLength bytesLen draws % 256 * 8 % 256 / 8 = runLength bytesLen draws % 32 := by
    omega
  have start : 0 + runStart bytesLen draws * 8 / 8 = runStart bytesLen draws := by omega
  rw [mutateRandomBytesInsert, if_neg fits, count]
  have loop := insert_loop_returns bytes (runStart bytesLen draws * 8 / 8) 0
    (runLength bytesLen draws % 32) store draws.tail.tail.tail
  rw [start] at loop
  exact loop

/-- A run is overwritten as drawn, all its bytes and no others, exactly if it is
shorter than 32. -/
theorem run_overwritten_iff {bytes bytesLen : Nat} {store : Store} {draws : Stream' Rand}
    (operation : draws.head.val % 6 = 2) (lower : 2 ≤ bytesLen) (upper : bytesLen ≤ 255) :
    (Returns (mutateHavocRound bytes bytesLen) store draws fun _ after _ =>
      Overwrites (bytes + runStart bytesLen draws)
        (drawnBytes (runLength bytesLen draws) draws.tail.tail.tail) store after) ↔
      runLength bytesLen draws < 32 := by
  have turn := @havoc_run_returns bytes bytesLen store draws operation (by omega) upper
  constructor
  · intro claimed
    obtain ⟨_, after, _, run, overwrites⟩ := turn
    have touched := (claimed.returned run).touched
    rw [overwrites.touched, List.append_left_inj] at touched
    have lengths := congrArg List.length touched
    rw [List.length_reverse, List.length_reverse, List.length_range', List.length_range',
      drawn_bytes_length, drawn_bytes_length] at lengths
    rw [← lengths]
    exact Nat.mod_lt _ (by decide)
  · intro short
    rw [Nat.mod_eq_of_lt short] at turn
    exact turn

def runDraws (first second : Nat) : Stream' Rand :=
  [2, first, second].map drawnOf ++ₛ Stream'.const (drawnOf 0)

theorem five_bytes_overwritten :
    Returns (mutateHavocRound 0 40) ⟨fun _ => 1, []⟩ (runDraws 3 4) fun _ after _ =>
      Overwrites (0 + runStart 40 (runDraws 3 4))
        (drawnBytes (runLength 40 (runDraws 3 4)) (runDraws 3 4).tail.tail.tail)
        ⟨fun _ => 1, []⟩ after :=
  (run_overwritten_iff (by decide) (by decide) (by decide)).mpr (by decide)

/-- A run of 32 bytes counts no bits, and nothing is overwritten. -/
theorem long_run_untouched :
    ¬Returns (mutateHavocRound 0 40) ⟨fun _ => 1, []⟩ (runDraws 0 31) fun _ after _ =>
      Overwrites (0 + runStart 40 (runDraws 0 31))
        (drawnBytes (runLength 40 (runDraws 0 31)) (runDraws 0 31).tail.tail.tail)
        ⟨fun _ => 1, []⟩ after := by
  intro claimed
  have touched := (claimed.returned rfl).touched
  exact absurd (congrArg List.length touched) (by decide)

end Blueman.HavocRanges
