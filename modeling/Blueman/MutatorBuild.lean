import Blueman.MutatorFullStack2Frame
import Blueman.MutatorRandom
import Blueman.MutatorAfl4

/-!
# The mutator linked into the fuzzer

The makefile links one of three files that define `mutate_pkt`. Whichever it is,
a call leaves `mutated` as it was or sets it to 1, and the field-aware one
returns a packet it does not select as it was.
-/

namespace Blueman.MutatorBuild

open LittleEndian ByteMachine BlePacket MutateStrategy Mutator PacketSelection
open MutatorFullStack2Frame

set_option autoImplicit false

/-- The configuration is the one in force during a run. -/
inductive Build
  | fieldAware (config : PktselConfig)
  | random
  | afl

def mutatePkt : Build → Nat → Program Rand Nat
  | .fieldAware config, idx => MutatorFullStack2.mutatePkt config idx
  | .random, idx => MutatorRandom.mutatePkt idx
  | .afl, idx => MutatorAfl4.mutatePkt idx

/-- `mutated` is unchanged or 1. -/
def Marked (before after : Store) : Prop :=
  fieldOf after mutatedOffset = fieldOf before mutatedOffset ∨ fieldOf after mutatedOffset = 1

/-- The bytes other than those of `mutated`. -/
abbrev unmarked : Set Nat := {position | position < mutatedOffset ∨ mutatedOffset + 4 ≤ position}

theorem within_unmarked {before after : Store} (frame : Within Set.univ unmarked before after) :
    fieldOf after mutatedOffset = fieldOf before mutatedOffset := by
  apply within_field_of frame
  intro index inWord outside
  have apart : mutatedOffset + index < mutatedOffset ∨ mutatedOffset + 4 ≤ mutatedOffset + index :=
    outside
  omega

theorem payload_unmarked {first length : Nat} (behind : mutatedOffset + 4 ≤ first) :
    region first length ⊆ unmarked := by
  intro position member
  exact .inr (Nat.le_trans behind (Set.mem_Ico.mp member).1)

theorem ici_unmarked : Set.Ici pktOffset ⊆ unmarked := by
  intro position member
  exact .inr (Nat.le_trans (by decide) (Set.mem_Ici.mp member))

section FullStack2

open MutatorFullStack2

theorem overwrite_returns {condition : Nat → Prop} [DecidablePred condition]
    (write : Program Rand Unit) (payload payloadLen : Nat) (store : Store) :
    Ensures (do
        let choice ← rand
        whenever (condition choice) write
        mutateHavoc payload payloadLen blePktMaxLen
        return 1 : Program Rand Nat) store (fun ret _ => ret = 1) fun _ _ => True := by
  apply ensures_bind_any
  intro _ _
  apply ensures_bind_any
  intro _ _
  apply ensures_bind_any
  intro _ _
  exact ensures_pure rfl

theorem att_returns (store : Store) :
    Ensures attMutator store (fun ret _ => ret = 1) fun _ _ => True := by
  apply ensures_bind_any
  intro _ _
  apply ensures_if
  · intro _
    exact ensures_pure rfl
  · intro _
    exact overwrite_returns _ _ _ _

theorem sm_returns (store : Store) :
    Ensures smMutator store (fun ret _ => ret = 1) fun _ _ => True := by
  apply ensures_bind_any
  intro _ _
  apply ensures_if
  · intro _
    exact ensures_pure rfl
  · intro _
    exact overwrite_returns _ _ _ _

/-- A mutator that can reach the bytes of `mutated` reports a mutation. -/
theorem run_layer_mutator_mark (store : Store) (chosen : Option LayerMutator) :
    Ensures (runLayerMutator chosen) store
      (fun ret after => ret ≠ 0 ∨ fieldOf after mutatedOffset = fieldOf store mutatedOffset)
      fun _ _ => True := by
  have confined {program : Program Rand Nat} {reach : Set Nat} {length : Nat}
      (frame : ConfinedFrom store reach (region pktOffset length) program) :
      Ensures program store
        (fun ret after => ret ≠ 0 ∨ fieldOf after mutatedOffset = fieldOf store mutatedOffset)
        fun _ _ => True := by
    apply Ensures.mono frame
    · intro _ after within
      exact .inr (within_unmarked (within.mono (Set.subset_univ _)
        (payload_unmarked (by decide))))
    · intro _ _ _
      trivial
  have nonzero (ret : Nat) (after : Store) (one : ret = 1) :
      ret ≠ 0 ∨ fieldOf after mutatedOffset = fieldOf store mutatedOffset :=
    .inl (by rw [one]; decide)
  cases chosen with
  | none => exact ensures_pure (.inr rfl)
  | some layer =>
      cases layer with
      | llData => exact confined (ll_data_confined store)
      | l2cap => exact confined (l2cap_confined store)
      | att => exact (att_returns store).mono nonzero fun _ _ _ => trivial
      | sm => exact (sm_returns store).mono nonzero fun _ _ _ => trivial
      | llAdvertising => exact confined (ll_advertising_confined store)

theorem mark_mutated_ensures (store : Store) (ret : Nat) (oldPayloadLen : UInt8) :
    Ensures (markMutated ret oldPayloadLen) store
      (fun _ after => fieldOf after mutatedOffset = 1 ∨
        ret = 0 ∧ fieldOf after mutatedOffset = fieldOf store mutatedOffset)
      fun _ _ => True := by
  apply ensures_bind
  apply ensures_load_field
  apply ensures_whenever
  · intro _
    exact ensures_save_word (.inl (field_of_put_field _ mutatedOffset 1))
  · intro neither
    exact .inr ⟨by_contra fun nonzero => neither (.inl nonzero), rfl⟩

theorem mutate_strategy_marked (store : Store) :
    Ensures mutateStrategy store (fun _ after => Marked store after) fun _ _ => True := by
  apply ensures_bind
  apply (redraw_len_ensures store).mono _ fun _ _ _ => trivial
  intro _ first redraw
  have sameFirst : fieldOf first mutatedOffset = fieldOf store mutatedOffset :=
    within_unmarked (redraw.1.mono (Set.subset_univ _) fun position member =>
      .inr (Nat.le_trans (by decide) (Set.mem_Ico.mp member).1))
  apply ensures_bind
  apply ensures_load_field
  apply ensures_bind
  apply (choose_layer_ensures _).mono _ fun _ _ _ => trivial
  intro chosen second parsed
  have sameSecond : fieldOf second mutatedOffset = fieldOf first mutatedOffset :=
    field_of_congr parsed.1 _
  apply ensures_bind
  apply (run_layer_mutator_mark second chosen).mono _ fun _ _ _ => trivial
  intro ret third reported
  apply ensures_bind
  apply Ensures.mono (rewrite_header_len_confined third) _ fun _ _ _ => trivial
  intro _ fourth header
  have sameFourth : fieldOf fourth mutatedOffset = fieldOf third mutatedOffset :=
    within_unmarked (header.mono (Set.subset_univ _) ici_unmarked)
  apply ensures_bind
  apply (mark_mutated_ensures fourth ret _).mono _ fun _ _ _ => trivial
  intro _ last marked
  apply ensures_pure
  rcases marked with one | ⟨zero, same⟩
  · exact .inr one
  · have kept := reported.resolve_left fun nonzero => nonzero zero
    exact .inl (by rw [same, sameFourth, kept, sameSecond, sameFirst])

theorem full_stack_marked (store : Store) (config : PktselConfig) (idx : Nat) :
    Ensures (MutatorFullStack2.mutatePkt config idx) store (fun _ after => Marked store after)
      fun _ _ => True := by
  apply ensures_bind
  apply ensures_load_field
  apply ensures_if
  · intro _
    exact ensures_pure (.inl rfl)
  · intro _
    apply ensures_bind
    apply (should_mutate_store config idx _).mono _ fun _ _ _ => trivial
    rintro selected _ rfl
    apply ensures_if
    · intro _
      exact mutate_strategy_marked _
    · intro _
      exact ensures_pure (.inl rfl)

theorem unselected_unchanged (config : PktselConfig) (idx : Nat) (packet : BlePkt)
    (beyond : Memory) (draws : Stream' Rand)
    (unselected : packet.len = 5 ∨ selects config idx draws = false) :
    ∃ after, runMutator (MutatorFullStack2.mutatePkt config idx) beyond packet draws =
      .ok 0 after ∧ recordOf after.store = packet := by
  have loads : loadField lenOffset ⟨place packet beyond, draws⟩ =
      .ok packet.len ⟨(place packet beyond).touch (List.range' (packetAddress + lenOffset) 4),
        draws⟩ := by
    rw [← (place_field packet beyond).1]
    rfl
  have same : recordOf ((place packet beyond).touch
      (List.range' (packetAddress + lenOffset) 4)) = packet := record_of_place packet beyond
  unfold runMutator MutatorFullStack2.mutatePkt mutatePktWith
  rw [run_bind_ok loads]
  split_ifs with five
  · exact ⟨_, rfl, same⟩
  · have run := should_mutate_run config idx
      ((place packet beyond).touch (List.range' (packetAddress + lenOffset) 4)) draws
    rw [run_bind_ok run, unselected.resolve_left five]
    exact ⟨_, rfl, same⟩

end FullStack2

section Random

open MutatorRandom

/-- What the random mutator writes before it marks the packet. -/
abbrev rewritten : Set Nat := lenField ∪ Set.Ici pktOffset

theorem rewritten_unmarked : rewritten ⊆ unmarked := by
  intro position member
  rcases member with inLen | inPacket
  · exact .inr (Nat.le_trans (by decide) (Set.mem_Ico.mp inLen).1)
  · exact ici_unmarked inPacket

theorem region_rewritten {first length : Nat} (inPacket : pktOffset ≤ first) :
    region first length ⊆ rewritten := by
  intro position member
  exact .inr (Nat.le_trans inPacket (Set.mem_Ico.mp member).1)

theorem random_byte_rewrites {bytes bytesLen : Nat} (inPacket : pktOffset ≤ bytes) :
    Confined Set.univ rewritten (mutateRandomByte bytes bytesLen) :=
  (random_byte_confined bytes bytesLen).mono (Set.subset_univ _) (region_rewritten inPacket)

theorem mutate_payload_rewrites {header payload newPayloadLen : Nat}
    (headerInside : pktOffset ≤ header) (payloadInside : pktOffset ≤ payload) :
    Confined Set.univ rewritten (mutatePayload header payload newPayloadLen) := by
  apply (mutate_payload_confined header payload newPayloadLen).mono (Set.subset_univ _)
  apply Set.union_subset (region_rewritten payloadInside)
  exact Set.union_subset (region_rewritten (Nat.le_succ_of_le headerInside))
    Set.subset_union_left

theorem load_field_rewrites (offset : Nat) : Confined Set.univ rewritten (loadField offset) :=
  confined_load_field fun _ _ => Set.mem_univ _

theorem ll_data_rewrites (layer : FuzzLayer) :
    Confined Set.univ rewritten (llDataMutator layer) := by
  apply confined_bind (load_field_rewrites _)
  intro _
  apply confined_if fun _ => confined_pure _
  intro _
  apply confined_bind (load_field_rewrites _)
  intro _
  apply confined_bind confined_rand
  intro _
  apply confined_bind (confined_remainder _ _)
  intro _
  apply confined_bind (random_byte_rewrites (Nat.le_refl _))
  intro _
  exact mutate_payload_rewrites (Nat.le_refl _) (by decide)

theorem ll_advertising_rewrites : Confined Set.univ rewritten llAdvertisingMutator := by
  apply confined_bind (load_field_rewrites _)
  intro _
  apply confined_if fun _ => confined_pure _
  intro _
  apply confined_bind (load_field_rewrites _)
  intro _
  apply confined_bind confined_rand
  intro _
  apply confined_bind
  · apply confined_if
    · intro _
      apply confined_bind confined_rand
      intro _
      exact confined_bind (confined_remainder _ _) fun _ => confined_pure _
    · intro _
      exact confined_pure _
  · intro _
    apply confined_bind (random_byte_rewrites (Nat.le_refl _))
    intro _
    exact mutate_payload_rewrites (Nat.le_refl _) (by decide)

theorem random_layer_rewrites : Confined Set.univ rewritten (do
    if ← isDataPacket then llDataMutator (← getUpperLayerTypeForZephyr)
    else llAdvertisingMutator : Program Rand Nat) := by
  apply confined_bind (confined_bind (load_field_rewrites _) fun _ => confined_pure _)
  intro _
  apply confined_if
  · intro _
    exact confined_bind (upper_layer_type_confined fun _ _ => Set.mem_univ _) ll_data_rewrites
  · intro _
    exact ll_advertising_rewrites

theorem random_marked (store : Store) (idx : Nat) :
    Ensures (MutatorRandom.mutatePkt idx) store (fun _ after => Marked store after)
      fun _ _ => True := by
  apply ensures_bind
  apply ensures_rand
  intro _ _
  apply ensures_if
  · intro _
    exact ensures_pure (.inl rfl)
  · intro _
    apply ensures_bind
    apply Ensures.mono (random_layer_rewrites store) _ fun _ _ _ => trivial
    intro ret middle frame
    apply ensures_bind
    apply ensures_whenever
    · intro _
      exact ensures_save_word (ensures_pure (.inr (field_of_put_field middle mutatedOffset 1)))
    · intro _
      exact ensures_pure (.inl (within_unmarked (frame.mono (Set.Subset.refl _)
        rewritten_unmarked)))

end Random

theorem afl_marked (store : Store) (idx : Nat) :
    Ensures (MutatorAfl4.mutatePkt idx) store (fun _ after => Marked store after)
      fun _ _ => True := by
  have strategy : Ensures MutatorAfl4.mutateStrategy store
      (fun _ after => fieldOf after mutatedOffset = 1) fun _ _ => True := by
    apply ensures_bind_any
    intro _ _
    apply ensures_bind_any
    intro _ _
    apply ensures_bind_any
    intro _ _
    apply ensures_bind_any
    intro _ _
    apply ensures_bind_any
    intro _ _
    apply ensures_bind_any
    intro _ _
    apply ensures_bind_any
    intro _ last
    exact ensures_bind (ensures_save_word (ensures_pure (field_of_put_field last mutatedOffset 1)))
  apply ensures_bind
  apply strategy.mono _ fun _ _ _ => trivial
  intro _ middle marked
  apply ensures_bind
  apply ensures_load_field
  apply ensures_bind
  apply ensures_load_field
  apply ensures_bind
  apply ensures_whenever
  · intro _
    apply ensures_save_word
    apply ensures_pure
    exact .inr ((field_of_put_field_other middle lenOffset mutatedOffset _ (by decide)).trans marked)
  · intro _
    exact ensures_pure (.inr marked)

/-- Whichever mutator is linked, it leaves `mutated` alone or sets it to 1. -/
theorem mutate_pkt_marked (build : Build) (idx : Nat) (store : Store) :
    Ensures (mutatePkt build idx) store (fun _ after => Marked store after) fun _ _ => True := by
  cases build with
  | fieldAware config => exact full_stack_marked store config idx
  | random => exact random_marked store idx
  | afl => exact afl_marked store idx

end Blueman.MutatorBuild
