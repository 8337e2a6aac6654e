import Blueman.MutatorFullStack2Flag
import Blueman.MutatorBuild
import Blueman.HavocEngines

/-!
# The divisors of the remainders

What a draw is divided by is a length that the mutators have checked, or one more
than a limit. Only the random mutator divides by the limit itself, and the limit
is what the radio has been told, which may be zero.
-/

namespace Blueman.Divisors

open LittleEndian ByteMachine BlePacket MutateStrategy Mutator PacketSelection MutatorBuild
open MutatorFullStack2Frame MutatorFullStack2Flag HavocEngines

set_option autoImplicit false

section FullStack2

open MutatorFullStack2

theorem should_mutate_faultless (config : PktselConfig) (idx : Nat) :
    Faultless (shouldMutatePacket config idx) := by
  have prob : Faultless (selectionProb config idx) := by
    unfold selectionProb
    split
    all_goals first
      | exact faultless_pure _
      | exact faultless_bind faultless_rand fun _ => faultless_pure _
  exact faultless_bind prob fun _ => faultless_bind faultless_rand fun _ => faultless_pure _

theorem redraw_len_faultless : Faultless redrawLen := by
  apply faultless_bind faultless_rand
  intro _
  apply faultless_whenever
  intro _
  apply faultless_bind (load_field_faultless _)
  intro _
  apply faultless_bind faultless_rand
  intro _
  exact faultless_remainder_bind (Nat.succ_pos _) fun _ _ => save_field_faultless _ _

theorem upper_layer_type_faultless : Faultless getUpperLayerTypeForZephyr := by
  apply faultless_bind (faultless_load _)
  intro _
  apply faultless_bind (faultless_load _)
  intro _
  refine faultless_if (fun _ => faultless_pure _) fun _ => faultless_if (fun _ => faultless_pure _)
    fun _ => faultless_if (fun _ => ?_) fun _ => faultless_pure _
  exact faultless_bind (faultless_load_word _ _) fun _ => faultless_pure _

theorem choose_layer_faultless : Faultless chooseLayerMutator := by
  apply faultless_bind (faultless_bind (load_field_faultless _) fun _ => faultless_pure _)
  intro isData
  apply faultless_if _ fun _ => faultless_pure _
  intro _
  apply faultless_bind upper_layer_type_faultless
  intro _
  exact faultless_bind faultless_rand fun _ => faultless_pure _

theorem full_stack2_faultless (config : PktselConfig) (idx : Nat) :
    Faultless (MutatorFullStack2.mutatePkt config idx) := by
  apply faultless_bind (load_field_faultless _)
  intro _
  apply faultless_if (fun _ => faultless_pure _)
  intro _
  apply faultless_bind (should_mutate_faultless config idx)
  intro _
  apply faultless_if _ fun _ => faultless_pure _
  intro _
  apply faultless_bind redraw_len_faultless
  intro _
  apply faultless_bind (load_field_faultless _)
  intro _
  apply faultless_bind choose_layer_faultless
  intro chosen
  apply faultless_bind (run_layer_mutator_faultless chosen)
  intro ret
  exact header_and_mark_faultless ret _

end FullStack2

theorem afl_faultless (idx : Nat) : Faultless (MutatorAfl4.mutatePkt idx) := by
  have strategy : Faultless MutatorAfl4.mutateStrategy := by
    apply faultless_bind (load_field_faultless _)
    intro _
    apply faultless_bind faultless_rand
    intro _
    apply faultless_remainder_bind (Nat.succ_pos _)
    intro _ _
    apply faultless_bind (save_field_faultless _ _)
    intro _
    apply faultless_bind (load_field_faultless _)
    intro _
    apply faultless_bind (afl_mutate_havoc_faultless _ _)
    intro _
    apply faultless_bind (save_field_faultless _ _)
    intro _
    exact faultless_bind (save_field_faultless _ _) fun _ => faultless_pure _
  apply faultless_if (fun _ => faultless_pure _)
  intro _
  apply faultless_bind strategy
  intro _
  apply faultless_bind (load_field_faultless _)
  intro _
  apply faultless_bind (load_field_faultless _)
  intro _
  exact faultless_bind (faultless_whenever fun _ => save_field_faultless _ _) fun _ => faultless_pure _

section Random

open MutatorRandom

theorem mutate_payload_faultless (header payload newPayloadLen : Nat) :
    Faultless (do
      mutateRandomByte header 1
      mutatePayload header payload newPayloadLen : Program Rand Nat) := by
  apply faultless_bind (random_byte_faultless header 1 (by decide))
  intro _
  apply faultless_bind
  · apply faultless_whenever
    intro nonzero
    have positive : 0 < newPayloadLen := Nat.pos_of_ne_zero nonzero
    apply faultless_bind faultless_rand
    intro _
    apply faultless_remainder_bind positive
    intro _ _
    exact faultless_for_range 0 fun _ _ => random_byte_faultless payload newPayloadLen positive
  · intro _
    apply faultless_bind (faultless_save _ _)
    intro _
    exact faultless_bind (save_field_faultless _ _) fun _ => faultless_pure _

theorem clamp_positive {limit : UInt32} (nonzero : limit ≠ 0) : 0 < (clamp limit).toNat := by
  unfold clamp
  split_ifs
  · decide
  · exact Nat.pos_of_ne_zero fun zero => nonzero (UInt32.toNat_inj.mp zero)

theorem ll_data_stops {store : Store} {draws : Stream' Rand} (layer : FuzzLayer)
    (long : ¬fieldOf store lenOffset ≤ 5) (zero : fieldOf store maxPayloadLenOffset = 0) :
    Stops (llDataMutator layer) store draws .divideByZero := by
  apply stops_bind
  apply returns_load_field
  apply stops_if (fun short => absurd short long)
  intro _
  apply stops_bind
  apply returns_load_field
  apply stops_bind
  apply returns_rand
  apply stops_first
  rw [field_of_touch, zero]
  exact stops_remainder

theorem ll_data_returns {store : Store} {draws : Stream' Rand} (layer : FuzzLayer)
    (safe : fieldOf store lenOffset ≤ 5 ∨ fieldOf store maxPayloadLenOffset ≠ 0) :
    Returns (llDataMutator layer) store draws fun _ _ _ => True := by
  apply returns_bind
  apply returns_load_field
  apply returns_if (fun _ => returns_pure trivial)
  intro long
  have limit : fieldOf store maxPayloadLenOffset ≠ 0 := safe.resolve_left long
  have positive : 0 < (clamp (fieldOf store maxPayloadLenOffset)).toNat :=
    clamp_positive limit
  apply returns_bind
  apply returns_load_field
  apply returns_bind
  apply returns_rand
  apply returns_bind
  apply returns_remainder positive
  exact (mutate_payload_faultless _ _ _).returns_some

theorem ll_advertising_stops {store : Store} {draws : Stream' Rand}
    (long : ¬fieldOf store lenOffset ≤ 5) (zero : fieldOf store maxPayloadLenOffset = 0)
    (drawn : draws.head.val % 100 ≥ 50) :
    Stops llAdvertisingMutator store draws .divideByZero := by
  apply stops_bind
  apply returns_load_field
  apply stops_if (fun short => absurd short long)
  intro _
  apply stops_bind
  apply returns_load_field
  apply stops_bind
  apply returns_rand
  apply stops_first
  rw [if_pos drawn, field_of_touch, zero]
  apply stops_bind
  apply returns_rand
  exact stops_first stops_remainder

theorem ll_advertising_returns {store : Store} {draws : Stream' Rand}
    (safe : fieldOf store lenOffset ≤ 5 ∨ fieldOf store maxPayloadLenOffset ≠ 0 ∨
      draws.head.val % 100 < 50) :
    Returns llAdvertisingMutator store draws fun _ _ _ => True := by
  apply returns_bind
  apply returns_load_field
  apply returns_if (fun _ => returns_pure trivial)
  intro long
  apply returns_bind
  apply returns_load_field
  apply returns_bind
  apply returns_rand
  apply returns_bind
  have rounds (newPayloadLen : Nat) (middle : Store) (rest : Stream' Rand) :
      Returns (do
        mutateRandomByte (getLlAdvHeader pktOffset) 1
        mutatePayload (getLlAdvHeader pktOffset) (getLlAdvPayload pktOffset) newPayloadLen)
        middle rest fun _ _ _ => True :=
    (mutate_payload_faultless _ _ _).returns_some
  apply returns_if
  · intro drawn
    have limit : fieldOf store maxPayloadLenOffset ≠ 0 :=
      (safe.resolve_left long).resolve_right (Nat.not_lt.mpr drawn)
    have positive : 0 < (clamp (fieldOf store maxPayloadLenOffset)).toNat :=
      clamp_positive limit
    apply returns_bind
    apply returns_rand
    apply returns_bind
    apply returns_remainder positive
    exact returns_pure (rounds _ _ _)
  · intro _
    exact returns_pure (rounds _ _ _)

/-- The draws take a packet with a payload and without a limit to the remainder by
that limit. -/
structure DividesByLimit (packet : BlePkt) (draws : Stream' Rand) : Prop where
  long : 5 < packet.len
  unlimited : packet.maxPayloadLen = 0
  mutated : draws.head.val % 100 < 98
  redrawn : packet.address = advertisingAddress → 50 ≤ draws.tail.head.val % 100

theorem is_data_packet_returns (store : Store) (draws : Stream' Rand) :
    Returns isDataPacket store draws fun isData after rest =>
      isData = decide (fieldOf store addressOffset ≠ advertisingAddress) ∧
        after.memory = store.memory ∧ rest = draws := by
  apply returns_bind
  apply returns_load_field
  exact returns_pure ⟨rfl, rfl, rfl⟩

theorem random_stops (packet : BlePkt) (beyond : Memory) (idx : Nat) (draws : Stream' Rand)
    (divides : DividesByLimit packet draws) :
    Stops (MutatorRandom.mutatePkt idx) (place packet beyond) draws .divideByZero := by
  obtain ⟨len, limit, address⟩ := place_field packet beyond
  have long : ¬fieldOf (place packet beyond) lenOffset ≤ 5 := by
    rw [len]
    exact UInt32.not_le.mpr divides.long
  have zero : fieldOf (place packet beyond) maxPayloadLenOffset = 0 := limit.trans divides.unlimited
  apply stops_bind
  apply returns_rand
  apply stops_if (fun skipped => absurd divides.mutated (Nat.not_lt.mpr skipped))
  intro _
  apply stops_first
  apply stops_bind
  apply (is_data_packet_returns _ _).mono
  rintro isData after rest ⟨rfl, same, rfl⟩
  rw [address]
  have sameField := field_of_congr same
  apply stops_if
  · intro _
    apply stops_bind
    apply (upper_layer_type_returns after _).mono
    rintro layer parsed rest ⟨rfl, -, unchanged⟩
    have keptField := field_of_congr unchanged
    apply ll_data_stops
    · rwa [keptField, sameField]
    · rwa [keptField, sameField]
  · intro advertising
    have isAdvertising : packet.address = advertisingAddress := by
      simpa using advertising
    apply ll_advertising_stops
    · rwa [sameField]
    · rwa [sameField]
    · exact divides.redrawn isAdvertising

theorem random_returns (packet : BlePkt) (beyond : Memory) (idx : Nat) (draws : Stream' Rand)
    (safe : ¬DividesByLimit packet draws) :
    Returns (MutatorRandom.mutatePkt idx) (place packet beyond) draws fun _ _ _ => True := by
  obtain ⟨len, limit, address⟩ := place_field packet beyond
  have marked (ret : Nat) (store : Store) (rest : Stream' Rand) :
      Returns (do
        whenever (ret ≠ 0) (saveField mutatedOffset 1)
        return ret : Program Rand Nat) store rest fun _ _ _ => True := by
    have faultless : Faultless (do
        whenever (ret ≠ 0) (saveField mutatedOffset 1)
        return ret : Program Rand Nat) :=
      faultless_bind (faultless_whenever fun _ => save_field_faultless _ _) fun _ => faultless_pure _
    exact faultless.returns_some
  apply returns_bind
  apply returns_rand
  apply returns_if (fun _ => returns_pure trivial)
  intro taken
  have mutated : draws.head.val % 100 < 98 := Nat.lt_of_not_le taken
  apply returns_bind
  apply returns_bind
  apply (is_data_packet_returns _ _).mono
  rintro isData after rest ⟨rfl, same, rfl⟩
  rw [address]
  have sameField := field_of_congr same
  apply returns_if
  · intro data
    have notAdvertising : packet.address ≠ advertisingAddress := of_decide_eq_true data
    apply returns_bind
    apply (upper_layer_type_returns after _).mono
    rintro layer parsed rest ⟨rfl, -, unchanged⟩
    have keptField := field_of_congr unchanged
    apply (ll_data_returns layer _).mono fun ret store rest _ => marked ret store rest
    rw [keptField, keptField, sameField, sameField, len, limit]
    by_contra divides
    push Not at divides
    exact safe ⟨UInt32.not_le.mp divides.1, divides.2, mutated, fun same => absurd same notAdvertising⟩
  · intro _
    apply (ll_advertising_returns _).mono fun ret store rest _ => marked ret store rest
    rw [sameField, sameField, len, limit]
    by_contra divides
    push Not at divides
    exact safe ⟨UInt32.not_le.mp divides.1, divides.2.1, mutated, fun _ => divides.2.2⟩

end Random

/-- No mutator divides by zero, but the random one by the limit of a packet that
has a payload and is given none. -/
theorem divides_by_zero_iff (build : Build) (idx : Nat) (packet : BlePkt) (beyond : Memory)
    (draws : Stream' Rand) :
    ¬Stops (mutatePkt build idx) (place packet beyond) draws .divideByZero ↔
      ¬(build = .random ∧ DividesByLimit packet draws) := by
  cases build with
  | fieldAware config =>
      have faultless := full_stack2_faultless config idx
      simp [mutatePkt, faultless.returns_some.not_stops]
  | random =>
      constructor
      · rintro returns ⟨-, divides⟩
        exact returns (random_stops packet beyond idx draws divides)
      · intro safe
        apply (random_returns packet beyond idx draws _).not_stops
        intro divides
        exact safe ⟨rfl, divides⟩
  | afl =>
      have faultless := afl_faultless idx
      simp [mutatePkt, faultless.returns_some.not_stops]

def unlimitedPacket : BlePkt := { BlePkt.ofMemory (fun _ => 0) 0 with len := 27 }

theorem unlimited_packet_divides :
    Stops (mutatePkt .random 0) (place unlimitedPacket fun _ => 0) (Stream'.const (drawnOf 0))
      .divideByZero :=
  random_stops unlimitedPacket _ 0 _ ⟨by decide, rfl, by decide, fun same => absurd same (by decide)⟩

end Blueman.Divisors
