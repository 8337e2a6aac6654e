import Blueman.LayerFields

/-!
# What the mutators can make of a packet

The contents that `mutate_havoc` and the mutators of the layers can leave, over all
streams of draws: not only that they change nothing else, but that they reach
everything in their region. A region of one byte is never touched.
-/

namespace Blueman.ReachableBytes

open LittleEndian ByteMachine BlePacket MutateStrategy Mutator MutatorFullStack2
open MutatorFullStack2Frame LayerFields

set_option autoImplicit false

section

variable {bytes bytesLen maxBytesLen : Nat} {store : Store}

theorem insert_possibly {start run : Nat} (fresh : Memory) (inside : start + run ≤ bytesLen) :
    Possibly (mutateRandomBytesInsert bytes bytesLen (start * 8) (run * 8)) store
      fun _ after => after.memory = patched (bytes + start) run fresh store.memory := by
  have count : run * 8 / 8 = run := Nat.mul_div_cancel _ (by decide)
  have first : start * 8 / 8 = start := Nat.mul_div_cancel _ (by decide)
  apply possibly_if
  · intro outside
    omega
  · intro _
    rw [count, first]
    have loop := @possibly_for_range Rand store
      (fun i => do
        let byte ← rand
        save (bytes + (i + start)) (UInt8.ofNat byte)) 0 run
      (fun index after => after.memory = patched (bytes + start) index fresh store.memory)
      (fun index before _ _ same => ?_) (patched_none _ _ _).symm
    · rwa [Nat.zero_add] at loop
    · have place : bytes + (index + start) = bytes + start + index := by omega
      have drawable : (fresh (bytes + start + index)).toNat ≤ randMax :=
        Nat.le_trans (Nat.le_of_lt (UInt8.toNat_lt _)) (by decide)
      apply possibly_bind
      apply possibly_rand _ drawable
      apply possibly_save
      rw [place, UInt8.ofNat_toNat, ← patched_put, ← same]
      rfl

theorem havoc_round_overwrites {start run : Nat} (fresh : Memory) (some : 0 < run)
    (short : run ≤ 31) (inside : start + run ≤ bytesLen) (narrow : bytesLen ≤ 255) :
    Possibly (mutateHavocRound bytes bytesLen) store
      fun _ after => after.memory = patched (bytes + start) run fresh store.memory := by
  have inRange : start ≤ randMax ∧ run - 1 ≤ randMax := by
    have large : 255 ≤ randMax := by decide
    omega
  have bits : (run - 1 + 1) % 256 * 8 % 256 = run * 8 := by omega
  refine possibly_bind (possibly_rand 2 (by decide) ?_)
  refine possibly_bind (possibly_rand start inRange.1 ?_)
  refine possibly_bind (possibly_remainder (by omega) ?_)
  refine possibly_bind (possibly_rand (run - 1) inRange.2 ?_)
  rw [Nat.mod_eq_of_lt (by omega : start < bytesLen)]
  refine possibly_bind (possibly_remainder (by omega) ?_)
  rw [Nat.mod_eq_of_lt (by omega : run - 1 < bytesLen - start), bits]
  exact insert_possibly fresh inside

theorem havoc_overwrites (fresh : Memory) (pair : 2 ≤ bytesLen) (fits : bytesLen ≤ maxBytesLen)
    (narrow : maxBytesLen ≤ 255) :
    Possibly (mutateHavoc bytes bytesLen maxBytesLen) store
      fun _ after => after.memory = patched bytes bytesLen fresh store.memory := by
  have rounds : (bytesLen + 30) / 31 ≤ bytesLen / 2 := by omega
  have inRange : (bytesLen + 30) / 31 ≤ randMax := by
    have large : 255 ≤ randMax := by decide
    omega
  apply possibly_if (fun long => absurd long (Nat.not_lt.mpr fits))
  intro _
  refine possibly_bind (possibly_rand ((bytesLen + 30) / 31) inRange ?_)
  refine possibly_bind (possibly_remainder (Nat.succ_pos _) ?_)
  rw [Nat.mod_eq_of_lt (Nat.lt_succ_of_le rounds)]
  have begun : store.memory = patched bytes (min bytesLen (31 * 0)) fresh store.memory := by
    rw [Nat.mul_zero, Nat.min_zero, patched_none]
  have loop := @possibly_for_range Rand store (fun _ => mutateHavocRound bytes bytesLen) 0
    ((bytesLen + 30) / 31)
    (fun index after =>
      after.memory = patched bytes (min bytesLen (31 * index)) fresh store.memory)
    (fun index before _ more same => ?_) begun
  · apply loop.mono
    intro _ after same
    rw [same]
    congr 1
    omega
  · have left : min bytesLen (31 * index) = 31 * index := by omega
    have next : min bytesLen (31 * (index + 1)) =
        31 * index + min 31 (bytesLen - 31 * index) := by omega
    rw [left] at same
    rw [next, ← patched_append, ← same]
    exact havoc_round_overwrites fresh (by omega) (by omega) (by omega) (by omega)

/-- A region of less than two bytes gets no round, and one that is too long none
either. -/
theorem havoc_idle (idle : bytesLen < 2 ∨ maxBytesLen < bytesLen) {crash : Fault → Store → Prop} :
    Ensures (mutateHavoc bytes bytesLen maxBytesLen) store (fun _ after => after = store)
      crash := by
  apply ensures_if
  · intro _
    exact ensures_pure rfl
  · intro fits
    have single : bytesLen / 2 + 1 = 1 := by omega
    refine ensures_bind (ensures_rand fun drawn _ => ?_)
    refine ensures_bind (ensures_remainder (fun zero => absurd zero (Nat.succ_ne_zero _)) ?_)
    intro _
    rw [single, Nat.mod_one]
    exact ensures_pure rfl

/-- Over all draws `mutate_havoc` leaves every contents of its region and none that
differs elsewhere, and nothing at all if the region has less than two bytes. -/
theorem havoc_yields_iff (narrow : maxBytesLen ≤ 255) (memory : Memory) :
    Yields (mutateHavoc bytes bytesLen maxBytesLen) store memory ↔
      (∀ position, position ∉ region bytes bytesLen → memory position = store.memory position) ∧
        (bytesLen < 2 ∨ maxBytesLen < bytesLen → memory = store.memory) := by
  apply @yields_iff Rand Unit store _ _
    (fun memory => (∀ position, position ∉ region bytes bytesLen →
      memory position = store.memory position) ∧
        (bytesLen < 2 ∨ maxBytesLen < bytesLen → memory = store.memory)) (fun _ _ => True)
  · by_cases idle : bytesLen < 2 ∨ maxBytesLen < bytesLen
    · apply (@havoc_idle bytes bytesLen maxBytesLen store idle fun _ _ => True).mono
      · intro _ after same
        rw [same]
        exact ⟨fun _ _ => rfl, fun _ => rfl⟩
      · exact fun _ _ _ => trivial
    · apply Ensures.mono (havoc_confined bytes bytesLen maxBytesLen store)
      · intro _ after frame
        exact ⟨frame.unchanged, fun absurd => (idle absurd).elim⟩
      · exact fun _ _ _ => trivial
  · intro memory ⟨outside, still⟩
    by_cases idle : bytesLen < 2 ∨ maxBytesLen < bytesLen
    · rw [still idle]
      apply (havoc_possibly_idle bytes bytesLen maxBytesLen store).mono
      intro _ after same
      rw [same]
    · have reached := @havoc_overwrites bytes bytesLen maxBytesLen store memory (by omega)
        (by omega) narrow
      rwa [patched_eq outside] at reached

/-- Two bytes that become two others. -/
theorem pair_overwritten :
    Yields (mutateHavoc 40 2 blePktMaxLen) (place mtuRequest zeros)
      (patched 40 2 (fun _ => 0x5A) (place mtuRequest zeros).memory) := by
  apply (havoc_yields_iff (Nat.le_refl _) _).mpr
  constructor
  · intro position outside
    exact patched_outside _ _ fun inside => outside (Set.mem_Ico.mpr inside)
  · exact fun idle => absurd idle (by decide)

end

/-- How many bytes of a region havoc can change. -/
def touchable (length : Nat) : Nat := if 2 ≤ length ∧ length ≤ blePktMaxLen then length else 0

theorem touchable_le (length : Nat) : touchable length ≤ length := by
  unfold touchable
  split_ifs
  · exact Nat.le_refl _
  · exact Nat.zero_le _

theorem havoc_ensures (first length : Nat) (store : Store) :
    Ensures (mutateHavoc first length blePktMaxLen) store
      (fun _ after => ∀ position, position ∉ region first (touchable length) →
        after.memory position = store.memory position) fun _ _ => True := by
  unfold touchable
  split_ifs with busy
  · apply Ensures.mono (havoc_confined first length blePktMaxLen store)
    · intro _ after frame
      exact frame.unchanged
    · exact fun _ _ _ => trivial
  · apply (@havoc_idle first length blePktMaxLen store (by omega) fun _ _ => True).mono
    · intro _ after same position _
      rw [same]
    · exact fun _ _ _ => trivial

theorem havoc_possibly {store : Store} {first : Nat} (fresh : Memory) (length : Nat) :
    Possibly (mutateHavoc first length blePktMaxLen) store fun _ after =>
      after.memory = patched first (touchable length) fresh store.memory := by
  unfold touchable
  split_ifs with busy
  · exact havoc_overwrites fresh busy.1 busy.2 (Nat.le_refl _)
  · apply (havoc_possibly_idle first length blePktMaxLen store).mono
    intro _ after same
    rw [same, patched_none]

/-- The program changes nothing but the header, leaves there what is allowed, and can
leave all of it. -/
structure Rewrites (header : Set Nat) (allowed : Memory → Memory → Prop)
    (program : Program Rand Unit) : Prop where
  ensured : ∀ store, Ensures program store
    (fun _ after => allowed store.memory after.memory ∧
      ∀ position, position ∉ header → after.memory position = store.memory position)
    fun _ _ => True
  possible : ∀ store memory, allowed store.memory memory → Possibly program store fun _ after =>
    (∀ position, position ∈ header → after.memory position = memory position) ∧
      ∀ position, position ∉ header → after.memory position = store.memory position
  here : ∀ before after other, (∀ position, position ∈ header → other position = after position) →
    allowed before after → allowed before other

/-- What a mutator can leave that may rewrite a header and then havocs a payload: a header
that is allowed, and in the payload anything, unless it is too short or too long. -/
structure Overwritten (header : Set Nat) (allowed : Memory → Memory → Prop)
    (payload payloadLen : Nat) (before after : Memory) : Prop where
  rewritten : allowed before after
  others : ∀ position, position ∉ header → position ∉ region payload (touchable payloadLen) →
    after position = before position

section

variable {header : Set Nat} {allowed : Memory → Memory → Prop} {payload payloadLen : Nat}
  {condition : Nat → Prop} [DecidablePred condition] {write : Program Rand Unit}

theorem Rewrites.congr {other : Memory → Memory → Prop} {program : Program Rand Unit}
    (rewrites : Rewrites header allowed program)
    (same : ∀ before after, allowed before after ↔ other before after) :
    Rewrites header other program := by
  have equal : allowed = other := by
    funext before after
    exact propext (same before after)
  rwa [← equal]

theorem sometimes_rewrites {yes no : Nat} (rewrites : Rewrites header allowed write)
    (sometimes : condition yes ∧ yes ≤ randMax) (notAlways : ¬condition no ∧ no ≤ randMax) :
    Rewrites header
      (fun before after =>
        (∀ position, position ∈ header → after position = before position) ∨ allowed before after)
      (do
        let choice ← rand
        whenever (condition choice) write) := by
  constructor
  · intro store
    apply ensures_bind
    apply ensures_rand
    intro choice _
    apply ensures_whenever
    · intro _
      apply (rewrites.ensured store).mono
      · intro _ after ⟨kept, outside⟩
        exact ⟨.inr kept, outside⟩
      · exact fun _ _ _ => trivial
    · intro _
      exact ⟨.inl fun _ _ => rfl, fun _ _ => rfl⟩
  · intro store memory kept
    apply possibly_bind
    cases kept with
    | inl unchanged =>
        apply possibly_rand no notAlways.2
        apply possibly_whenever
        · exact fun holds => absurd holds notAlways.1
        · intro _
          exact ⟨fun position inHeader => (unchanged position inHeader).symm, fun _ _ => rfl⟩
    | inr kept =>
        apply possibly_rand yes sometimes.2
        apply possibly_whenever
        · exact fun _ => rewrites.possible store memory kept
        · exact fun never => absurd sometimes.1 never
  · intro before after other same kept
    apply kept.imp
    · intro unchanged position inHeader
      rw [same position inHeader, unchanged position inHeader]
    · exact rewrites.here before after other same

theorem Overwritten.longer {before after : Memory} {longer : Nat}
    (overwritten : Overwritten header allowed payload payloadLen before after)
    (longest : touchable payloadLen ≤ touchable longer) :
    Overwritten header allowed payload longer before after where
  rewritten := overwritten.rewritten
  others position apart outside :=
    overwritten.others position apart fun inside =>
      outside (region_subset (Nat.le_refl _) (by omega) inside)

theorem overwritten_ensures
    (rewrites : Rewrites header allowed do
      let choice ← rand
      whenever (condition choice) write)
    (apart : ∀ position ∈ header, position ∉ region payload payloadLen) (store : Store) :
    Ensures (do
        let choice ← rand
        whenever (condition choice) write
        mutateHavoc payload payloadLen blePktMaxLen
        return 1 : Program Rand Nat) store
      (fun _ after => Overwritten header allowed payload payloadLen store.memory after.memory)
      fun _ _ => True := by
  have grouped := @bind_assoc (Program Rand) _ _ _ _ _ rand
    (fun choice => whenever (condition choice) write)
    (fun _ => do mutateHavoc payload payloadLen blePktMaxLen; return 1 : Unit → Program Rand Nat)
  rw [← grouped]
  apply ensures_bind
  apply (rewrites.ensured store).mono
  · intro _ middle ⟨kept, outside⟩
    apply ensures_bind
    apply (havoc_ensures payload payloadLen middle).mono
    · intro _ after others
      apply ensures_pure
      constructor
      · apply rewrites.here store.memory middle.memory after.memory
        · intro position inHeader
          apply others position
          intro inside
          exact apart position inHeader
            (region_subset (Nat.le_refl _) (Nat.add_le_add_left (touchable_le _) _) inside)
        · exact kept
      · intro position far untouched
        rw [others position untouched, outside position far]
    · exact fun _ _ _ => trivial
  · exact fun _ _ _ => trivial

theorem overwritten_possibly
    (rewrites : Rewrites header allowed do
      let choice ← rand
      whenever (condition choice) write)
    {store : Store} {memory : Memory}
    (overwritten : Overwritten header allowed payload payloadLen store.memory memory) :
    Possibly (do
        let choice ← rand
        whenever (condition choice) write
        mutateHavoc payload payloadLen blePktMaxLen
        return 1 : Program Rand Nat) store fun _ after => after.memory = memory := by
  have grouped := @bind_assoc (Program Rand) _ _ _ _ _ rand
    (fun choice => whenever (condition choice) write)
    (fun _ => do mutateHavoc payload payloadLen blePktMaxLen; return 1 : Unit → Program Rand Nat)
  rw [← grouped]
  apply possibly_bind
  apply (rewrites.possible store memory overwritten.rewritten).mono
  intro _ middle ⟨inside, outside⟩
  apply possibly_bind
  apply (havoc_possibly memory payloadLen).mono
  intro _ after havocked
  apply possibly_pure
  rw [havocked]
  apply patched_eq
  intro position untouched
  by_cases inHeader : position ∈ header
  · exact (inside position inHeader).symm
  · rw [outside position inHeader, overwritten.others position inHeader untouched]

end

theorem masked_draw (target mask : UInt8) {S : Nat} (inByte : S < 8) :
    (target <<< UInt8.ofNat S &&& mask) >>> UInt8.ofNat S =
      target &&& mask >>> UInt8.ofNat S := by
  have shift : ((UInt8.ofNat S).toBitVec % 8).toNat = S := by
    rw [BitVec.toNat_umod, UInt8.toNat_toBitVec, UInt8.toNat_ofNat']
    change S % 256 % 8 = S
    omega
  apply UInt8.toBitVec_inj.mp
  apply BitVec.eq_of_getLsbD_eq
  intro bit _
  rw [UInt8.toBitVec_shiftRight, UInt8.toBitVec_and, UInt8.toBitVec_and,
    UInt8.toBitVec_shiftRight, UInt8.toBitVec_shiftLeft, BitVec.ushiftRight_eq',
    BitVec.ushiftRight_eq', BitVec.shiftLeft_eq', shift]
  simp only [BitVec.getLsbD_ushiftRight, BitVec.getLsbD_and, BitVec.getLsbD_shiftLeft]
  cases masked : mask.toBitVec.getLsbD (S + bit) with
  | false => simp
  | true => simp [BitVec.lt_of_getLsbD masked]

theorem rand_bits_possibly {store : Store} {S N : Nat} {mask : UInt8} (target : UInt8)
    (inByte : S < 8) (fits : N + S ≤ 16) (width : bitsArr[N]? = some mask) :
    Possibly (mutateRandBits pktOffset 2 S N) store fun _ after =>
      after.memory = Function.update store.memory pktOffset
        (store.memory pktOffset &&& ~~~(mask >>> UInt8.ofNat S) |||
          target &&& mask >>> UInt8.ofNat S) := by
  have first : pktOffset + S / 8 = pktOffset := by omega
  have shift : S % 8 = S := Nat.mod_eq_of_lt inByte
  have drawable : (target <<< UInt8.ofNat S).toNat ≤ randMax :=
    Nat.le_trans (Nat.le_of_lt (UInt8.toNat_lt _)) (by decide)
  apply possibly_if (fun outside => absurd fits (Nat.not_le.mpr outside))
  intro _
  rw [first, shift]
  refine possibly_bind (possibly_rand _ drawable ?_)
  refine possibly_bind (possibly_lookup width ?_)
  refine possibly_bind (possibly_load ?_)
  refine possibly_bind (possibly_save ?_)
  refine possibly_bind (possibly_load (possibly_save ?_))
  rw [UInt8.ofNat_toNat, masked_draw target mask inByte]
  simp only [Store.put, Store.touch, Function.update_self, Function.update_idem]

/-- Writing the bits under two masks of a byte that agrees with the old one elsewhere
gives the byte. -/
theorem masked_writes {old target first second keep : UInt8} (whole : ~~~(first ||| second) = keep)
    (same : target &&& keep = old &&& keep) :
    (old &&& ~~~first ||| target &&& first) &&& ~~~second ||| target &&& second = target := by
  apply byte_ext
  intro bit inByte
  have agree := congrArg (fun byte : UInt8 => byte.toBitVec.getLsbD bit) same
  rw [← whole] at agree
  simp only [UInt8.toBitVec_and, UInt8.toBitVec_or, UInt8.toBitVec_not, BitVec.getLsbD_and,
    BitVec.getLsbD_or, BitVec.getLsbD_not, decide_eq_true inByte, Bool.true_and] at agree ⊢
  cases low : first.toBitVec.getLsbD bit <;> cases high : second.toBitVec.getLsbD bit <;>
    simp_all

theorem masked_write {old target mask keep : UInt8} (whole : ~~~mask = keep)
    (same : target &&& keep = old &&& keep) : old &&& ~~~mask ||| target &&& mask = target := by
  have writes := @masked_writes old target 0 mask keep (by rwa [UInt8.zero_or]) same
  simpa using writes

/-- The first byte of the packet agrees with the old one in the bits of `keep`. -/
abbrev bitsKept (keep : UInt8) (before after : Memory) : Prop :=
  after pktOffset &&& keep = before pktOffset &&& keep

theorem bits_rewrite {keep : UInt8} {bits : Program Rand Unit} (kept : Keeps keep ∅ bits)
    (possible : ∀ (store : Store) (target : UInt8),
      target &&& keep = store.memory pktOffset &&& keep → Possibly bits store fun _ after =>
        after.memory = Function.update store.memory pktOffset target) :
    Rewrites {pktOffset} (bitsKept keep) bits := by
  constructor
  · intro store
    apply (kept store).mono
    · intro _ after same
      exact ⟨same.header, fun position apart => same.others position apart (Set.notMem_empty _)⟩
    · exact fun _ _ _ => trivial
  · intro store memory same
    apply (possible store (memory pktOffset) same).mono
    intro _ after updated
    rw [updated]
    constructor
    · intro position here
      rw [Set.mem_singleton_iff.mp here, Function.update_self]
    · intro position apart
      exact Function.update_of_ne apart _ _
  · intro before after other same kept
    unfold bitsKept
    rw [same pktOffset rfl]
    exact kept

theorem bits_kept_if_unchanged {keep : UInt8} (before after : Memory) :
    (∀ position, position ∈ ({pktOffset} : Set Nat) → after position = before position) ∨
        bitsKept keep before after ↔ bitsKept keep before after := by
  apply or_iff_right_of_imp
  intro unchanged
  unfold bitsKept
  rw [unchanged pktOffset rfl]

theorem data_header_rewrites : Rewrites {pktOffset} (bitsKept 0x0C) (do
    let choice ← rand
    whenever (choice % 100 < 30) do
      mutateRandBits (getLlDataHeader pktOffset) 2 6 2
      mutateRandBits (getLlDataHeader pktOffset) 2 0 4) := by
  have bits : Rewrites {pktOffset} (bitsKept 0x0C) (do
      mutateRandBits (getLlDataHeader pktOffset) 2 6 2
      mutateRandBits (getLlDataHeader pktOffset) 2 0 4) := by
    apply bits_rewrite
    · apply keeps_bind (rand_bits_keeps (by decide) rfl (by decide))
      intro _
      exact rand_bits_keeps (by decide) rfl (by decide)
    · intro store target same
      apply possibly_bind
      apply (rand_bits_possibly target (by decide) (by decide) rfl).mono
      intro _ middle low
      apply (rand_bits_possibly target (by decide) (by decide) rfl).mono
      intro _ after high
      rw [high, low, Function.update_self, Function.update_idem]
      congr 1
      exact masked_writes (by decide) same
  have sometimes := @sometimes_rewrites _ _ (fun choice => choice % 100 < 30) _ _ 0 99 bits
    (by decide) (by decide)
  exact sometimes.congr bits_kept_if_unchanged

theorem advertising_header_rewrites : Rewrites {pktOffset} (bitsKept 0xF0) (do
    let choice ← rand
    whenever (choice % 100 < 10) (mutateRandBits (getLlAdvHeader pktOffset) 2 4 4)) := by
  have bits : Rewrites {pktOffset} (bitsKept 0xF0)
      (mutateRandBits (getLlAdvHeader pktOffset) 2 4 4) := by
    apply bits_rewrite
    · exact rand_bits_keeps (by decide) rfl (by decide)
    · intro store target same
      apply (rand_bits_possibly target (by decide) (by decide) rfl).mono
      intro _ after written
      rw [written]
      congr 1
      exact masked_write (by decide) same
  have sometimes := @sometimes_rewrites _ _ (fun choice => choice % 100 < 10) _ _ 0 99 bits
    (by decide) (by decide)
  exact sometimes.congr bits_kept_if_unchanged

theorem byte_rewrites {address : Nat} {chosen : UInt8 → Prop} {write : Program Rand Unit}
    (saved : ∀ store, Ensures write store (fun _ after => ∃ byte, chosen byte ∧
      after.memory = Function.update store.memory address byte) fun _ _ => True)
    (possible : ∀ (store : Store) (byte : UInt8), chosen byte → Possibly write store fun _ after =>
      after.memory = Function.update store.memory address byte) :
    Rewrites {address} (fun _ after => chosen (after address)) write := by
  constructor
  · intro store
    apply (saved store).mono
    · intro _ after ⟨byte, allowed, updated⟩
      rw [updated, Function.update_self]
      exact ⟨allowed, fun position apart => Function.update_of_ne apart _ _⟩
    · exact fun _ _ _ => trivial
  · intro store memory allowed
    apply (possible store (memory address) allowed).mono
    intro _ after updated
    rw [updated]
    constructor
    · intro position here
      rw [Set.mem_singleton_iff.mp here, Function.update_self]
    · intro position apart
      exact Function.update_of_ne apart _ _
  · intro _ after other same allowed
    rwa [same address rfl]

theorem entry_possibly {Entry : Type} {table : List Entry} {entry : Entry} {store : Store}
    {post : Unit → Store → Prop} {next : Entry → Program Rand Unit} (member : entry ∈ table)
    (short : table.length ≤ randMax) (holds : Possibly (next entry) store post) :
    Possibly (do
      let drawn ← rand
      let chosen ← lookup table (drawn % table.length)
      next chosen) store post := by
  obtain ⟨index, found⟩ := List.mem_iff_getElem?.mp member
  have inside : index < table.length := (List.getElem?_eq_some_iff.mp found).1
  apply possibly_bind
  apply possibly_rand index (by omega)
  rw [Nat.mod_eq_of_lt inside]
  apply possibly_bind
  exact possibly_lookup found holds

theorem att_opcode_rewrites : Rewrites {getAttOpcode packetAddress}
    (fun before after =>
      (∀ position, position ∈ ({getAttOpcode packetAddress} : Set Nat) →
        after position = before position) ∨ after (getAttOpcode packetAddress) ∈ attOpMaps)
    (do
      let choice ← rand
      whenever (choice % 100 ≥ 30) do
        let opcode ← lookup attOpMaps ((← rand) % attOpMaps.length)
        save (getAttOpcode packetAddress) opcode) := by
  have write : Rewrites {getAttOpcode packetAddress}
      (fun _ after => after (getAttOpcode packetAddress) ∈ attOpMaps) (do
        let opcode ← lookup attOpMaps ((← rand) % attOpMaps.length)
        save (getAttOpcode packetAddress) opcode) := by
    apply @byte_rewrites _ (fun byte => byte ∈ attOpMaps)
    · intro store
      apply ensures_bind
      apply ensures_rand
      intro drawn _
      apply ensures_bind
      apply ensures_lookup
      · exact fun _ => trivial
      · intro opcode member
        exact ensures_save ⟨opcode, member, rfl⟩
    · intro store byte member
      exact entry_possibly member (by decide) (possibly_save rfl)
  exact @sometimes_rewrites _ _ (fun choice => choice % 100 ≥ 30) _ _ 30 0 write (by decide)
    (by decide)

theorem sm_code_rewrites : Rewrites {getSmCode packetAddress}
    (fun before after =>
      (∀ position, position ∈ ({getSmCode packetAddress} : Set Nat) →
        after position = before position) ∨ (after (getSmCode packetAddress)).toNat < 0xf)
    (do
      let choice ← rand
      whenever (choice % 100 < 70) do
        let code ← rand
        save (getSmCode packetAddress) (UInt8.ofNat (code % 0xf))) := by
  have write : Rewrites {getSmCode packetAddress}
      (fun _ after => (after (getSmCode packetAddress)).toNat < 0xf) (do
        let code ← rand
        save (getSmCode packetAddress) (UInt8.ofNat (code % 0xf))) := by
    apply @byte_rewrites _ (fun byte => byte.toNat < 0xf)
    · intro store
      apply ensures_bind
      apply ensures_rand
      intro code _
      apply ensures_save
      refine ⟨_, ?_, rfl⟩
      rw [UInt8.toNat_ofNat']
      omega
    · intro store byte below
      have drawable : byte.toNat ≤ randMax :=
        Nat.le_trans (Nat.le_of_lt (UInt8.toNat_lt _)) (by decide)
      apply possibly_bind
      apply possibly_rand byte.toNat drawable
      apply possibly_save
      rw [Nat.mod_eq_of_lt below, UInt8.ofNat_toNat]
      rfl
  exact @sometimes_rewrites _ _ (fun choice => choice % 100 < 70) _ _ 0 99 write (by decide)
    (by decide)

def cidAt (memory : Memory) : UInt16 :=
  UInt16.ofBitVec (readWord 2 memory (getL2capHeader pktOffset + 2))

abbrev cidField : Set Nat := region (getL2capHeader pktOffset + 2) 2

theorem cid_rewrites : Rewrites cidField
    (fun before after =>
      (∀ position, position ∈ cidField → after position = before position) ∨ cidAt after ∈ cidMaps)
    (do
      let redirect ← rand
      whenever (redirect % 100 < 20) do
        let cid ← lookup cidMaps ((← rand) % cidMaps.length)
        saveWord 2 (getL2capHeader pktOffset + 2) cid.toBitVec) := by
  have outside (memory : Memory) (cid : UInt16) (position : Nat) (apart : position ∉ cidField) :
      writeWord 2 memory (getL2capHeader pktOffset + 2) cid.toBitVec position =
        memory position := by
    apply write_word_outside
    by_contra inside
    exact apart (Set.mem_Ico.mpr (by omega))
  have write : Rewrites cidField (fun _ after => cidAt after ∈ cidMaps) (do
      let cid ← lookup cidMaps ((← rand) % cidMaps.length)
      saveWord 2 (getL2capHeader pktOffset + 2) cid.toBitVec) := by
    constructor
    · intro store
      apply ensures_bind
      apply ensures_rand
      intro drawn _
      apply ensures_bind
      apply ensures_lookup
      · exact fun _ => trivial
      · intro cid member
        apply ensures_save_word
        constructor
        · simpa [cidAt, Store.putWord] using member
        · exact outside store.memory cid
    · intro store memory member
      apply entry_possibly member (by decide)
      apply possibly_save_word
      constructor
      · intro position inside
        obtain ⟨lower, upper⟩ := Set.mem_Ico.mp inside
        have place : position = getL2capHeader pktOffset + 2 +
            (position - (getL2capHeader pktOffset + 2)) := by omega
        have inWord : position - (getL2capHeader pktOffset + 2) < 2 := by omega
        rw [place]
        simp only [Store.putWord, write_word_inside _ _ _ _ _ inWord, cidAt]
        exact byte_of_read_word 2 memory _ _ inWord
      · exact outside store.memory (cidAt memory)
    · intro _ after other same member
      have equal : cidAt other = cidAt after := by
        unfold cidAt
        congr 1
        apply read_word_congr
        intro index inWord
        exact same _ (Set.mem_Ico.mpr (by omega))
      rwa [equal]
  exact @sometimes_rewrites _ _ (fun redirect => redirect % 100 < 20) _ _ 0 99 write (by decide)
    (by decide)

/-- What a mutator can leave whose payload has the length `payloadLen`; with nothing to
mutate it returns at once. -/
structure Reached (header : Set Nat) (allowed : Memory → Memory → Prop) (payload : Nat)
    (payloadLen : Int) (before after : Memory) : Prop where
  overwritten : Overwritten header allowed payload payloadLen.toNat before after
  idle : payloadLen ≤ 0 → after = before

section

variable {header : Set Nat} {allowed : Memory → Memory → Prop} {payload : Nat}
  {payloadLen : UInt32 → Int} {condition : Nat → Prop} [DecidablePred condition]
  {write : Program Rand Unit}

abbrev guarded (condition : Nat → Prop) [DecidablePred condition] (write : Program Rand Unit)
    (payload : Nat) (payloadLen : UInt32 → Int) (result : Nat) : Program Rand Nat := do
  let len ← loadField lenOffset
  if payloadLen len ≤ 0 then return result
  else do
    let choice ← rand
    whenever (condition choice) write
    mutateHavoc payload (payloadLen len).toNat blePktMaxLen
    return 1

theorem guarded_ensures {result : Nat}
    (rewrites : Rewrites header allowed do
      let choice ← rand
      whenever (condition choice) write)
    (unchanged : ∀ memory, allowed memory memory)
    (ahead : ∀ position, position ∈ header → position < payload) (store : Store) :
    Ensures (guarded condition write payload payloadLen result) store
      (fun _ after => Reached header allowed payload (payloadLen (fieldOf store lenOffset))
        store.memory after.memory) fun _ _ => True := by
  apply ensures_bind
  apply ensures_load_field
  generalize fieldOf store lenOffset = len
  apply ensures_if
  · intro _
    exact ensures_pure ⟨⟨unchanged _, fun _ _ _ => rfl⟩, fun _ => rfl⟩
  · intro positive
    have apart (position : Nat) (inHeader : position ∈ header) :
        position ∉ region payload (payloadLen len).toNat := by
      intro inside
      have lower := (Set.mem_Ico.mp inside).1
      have upper := ahead position inHeader
      omega
    apply (overwritten_ensures rewrites apart (store.touch _)).mono
    · intro _ after overwritten
      exact ⟨overwritten, fun none => absurd none positive⟩
    · exact fun _ _ _ => trivial

theorem guarded_possibly {result : Nat}
    (rewrites : Rewrites header allowed do
      let choice ← rand
      whenever (condition choice) write)
    {store : Store} {memory : Memory}
    (reached : Reached header allowed payload (payloadLen (fieldOf store lenOffset)) store.memory
      memory) :
    Possibly (guarded condition write payload payloadLen result) store
      fun _ after => after.memory = memory := by
  apply possibly_bind
  apply possibly_load_field
  revert reached
  generalize fieldOf store lenOffset = len
  intro reached
  apply possibly_if
  · intro none
    exact possibly_pure (reached.idle none).symm
  · intro _
    exact overwritten_possibly rewrites reached.overwritten

end

/-- What a layer mutator can leave of a packet of length `len`. The L2CAP mutator may
shorten its payload, so that one which is too long for havoc is mutated up to its limit. -/
def LayerReached (len : UInt32) : LayerMutator → Memory → Memory → Prop
  | .llData => Reached {pktOffset} (bitsKept 0x0C) (getLlDataPayload pktOffset) (llPayloadLen len)
  | .llAdvertising =>
      Reached {pktOffset} (bitsKept 0xF0) (getLlAdvPayload pktOffset) (llPayloadLen len)
  | .l2cap =>
      Reached cidField
        (fun before after =>
          (∀ position, position ∈ cidField → after position = before position) ∨
            cidAt after ∈ cidMaps)
        (getL2capPayload pktOffset) (min (llPayloadLen len - l2capHeaderLen) blePktMaxLen)
  | .att =>
      Reached {getAttOpcode packetAddress}
        (fun before after =>
          (∀ position, position ∈ ({getAttOpcode packetAddress} : Set Nat) →
            after position = before position) ∨ after (getAttOpcode packetAddress) ∈ attOpMaps)
        (getAttParams packetAddress) (llPayloadLen len - l2capHeaderLen - attOpcodeLen)
  | .sm =>
      Reached {getSmCode packetAddress}
        (fun before after =>
          (∀ position, position ∈ ({getSmCode packetAddress} : Set Nat) →
            after position = before position) ∨ (after (getSmCode packetAddress)).toNat < 0xf)
        (getSmData packetAddress) (llPayloadLen len - l2capHeaderLen - smCodeLen)

theorem l2cap_ensures (store : Store) :
    Ensures l2capMutator store
      (fun _ after =>
        LayerReached (fieldOf store lenOffset) .l2cap store.memory after.memory)
      fun _ _ => True := by
  apply ensures_bind
  apply ensures_load_field
  generalize fieldOf store lenOffset = len
  apply ensures_bind
  apply ensures_load_word
  have same : LayerReached len .l2cap store.memory store.memory :=
    ⟨⟨.inl fun _ _ => rfl, fun _ _ _ => rfl⟩, fun _ => rfl⟩
  apply ensures_if
  · exact fun _ => ensures_pure same
  · intro positive
    have limit : blePktMaxLen = 255 := rfl
    have layout := pkt_layout
    have busy : ¬min (llPayloadLen len - l2capHeaderLen) blePktMaxLen ≤ 0 := by omega
    apply ensures_bind
    apply ensures_rand
    intro shorten _
    apply ensures_bind
    apply Ensures.mono (shortened_ensures shorten (llPayloadLen len - l2capHeaderLen).toNat _)
    · intro newPayloadLen middle ⟨shorter, unread⟩
      rw [unread]
      apply ensures_if
      · exact fun _ => ensures_pure same
      · intro _
        have apart (position : Nat) (inField : position ∈ cidField) :
            position ∉ region (getL2capPayload pktOffset) newPayloadLen := by
          intro inside
          have lower := (Set.mem_Ico.mp inside).1
          have upper := (Set.mem_Ico.mp inField).2
          omega
        have longest : touchable newPayloadLen ≤
            touchable (min (llPayloadLen len - l2capHeaderLen) blePktMaxLen).toNat := by
          unfold touchable
          split_ifs <;> omega
        apply (overwritten_ensures cid_rewrites apart _).mono
        · intro _ after overwritten
          exact ⟨overwritten.longer longest, fun none => absurd none busy⟩
        · exact fun _ _ _ => trivial
    · exact fun _ _ _ => trivial

theorem l2cap_possibly {store : Store} {memory : Memory}
    (reached : LayerReached (fieldOf store lenOffset) .l2cap store.memory memory) :
    Possibly l2capMutator store fun _ after => after.memory = memory := by
  apply possibly_bind
  apply possibly_load_field
  revert reached
  generalize fieldOf store lenOffset = len
  intro ⟨overwritten, idle⟩
  apply possibly_bind
  apply possibly_load_word
  apply possibly_if
  · intro none
    exact possibly_pure (idle (by omega)).symm
  · intro positive
    have limit : blePktMaxLen = 255 := rfl
    have drawable : (min (llPayloadLen len - l2capHeaderLen) blePktMaxLen).toNat ≤ randMax := by
      have large : 255 ≤ randMax := by decide
      omega
    apply possibly_bind
    apply possibly_rand 0 (Nat.zero_le _)
    apply possibly_bind
    apply possibly_if
    · intro _
      apply possibly_bind
      apply possibly_rand _ drawable
      apply possibly_remainder (Nat.succ_pos _)
      rw [Nat.mod_eq_of_lt (by omega)]
      apply possibly_if
      · intro none
        omega
      · intro _
        exact overwritten_possibly cid_rewrites overwritten
    · exact fun long => absurd (by decide) long

theorem layer_ensures (layer : LayerMutator) (store : Store) :
    Ensures (runLayerMutator (some layer)) store
      (fun _ after =>
        LayerReached (fieldOf store lenOffset) layer store.memory after.memory)
      fun _ _ => True := by
  have ahead {header payload : Nat} (below : header < payload) (position : Nat)
      (inHeader : position ∈ ({header} : Set Nat)) : position < payload := by
    rwa [Set.mem_singleton_iff.mp inHeader]
  cases layer with
  | llData => exact guarded_ensures data_header_rewrites (fun _ => rfl) (ahead (by decide)) store
  | llAdvertising =>
      exact guarded_ensures advertising_header_rewrites (fun _ => rfl) (ahead (by decide)) store
  | att =>
      exact guarded_ensures att_opcode_rewrites (fun _ => .inl fun _ _ => rfl) (ahead (by decide))
        store
  | sm =>
      exact guarded_ensures sm_code_rewrites (fun _ => .inl fun _ _ => rfl) (ahead (by decide))
        store
  | l2cap => exact l2cap_ensures store

theorem layer_possibly {layer : LayerMutator} {store : Store} {memory : Memory}
    (reached : LayerReached (fieldOf store lenOffset) layer store.memory memory) :
    Possibly (runLayerMutator (some layer)) store fun _ after => after.memory = memory := by
  cases layer with
  | llData => exact guarded_possibly data_header_rewrites reached
  | llAdvertising => exact guarded_possibly advertising_header_rewrites reached
  | att => exact guarded_possibly att_opcode_rewrites reached
  | sm => exact guarded_possibly sm_code_rewrites reached
  | l2cap => exact l2cap_possibly reached

/-- Over all draws a layer mutator leaves exactly what its header and its payload allow:
it changes nothing else, and every such packet is reached. -/
theorem layer_mutators_yield_iff (layer : LayerMutator) (store : Store) (memory : Memory) :
    Yields (runLayerMutator (some layer)) store memory ↔
      LayerReached (fieldOf store lenOffset) layer store.memory memory :=
  yields_iff (layer_ensures layer store) (fun _ => layer_possibly) memory

end Blueman.ReachableBytes
