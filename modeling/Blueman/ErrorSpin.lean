import Blueman.SeedHistory

/-!
# No slot of a seed belongs to device 0

The fuzzing interceptor loops forever on a slot whose `device_id` is 0. The ATT
and the SM mutator do write into that field, but no mutator writes before its
upper half. What is recorded came with `device_id` 1, so its lower half stays 1
from the first seed on, and the loop is never entered.
-/

namespace Blueman.ErrorSpin

open LittleEndian ByteMachine BlePacket MutateStrategy Mutator PacketSelection MutatorFullStack2
open MutatorFullStack2Frame MutatorBuild PacketRecord RunOutcome Coverage Interceptor FuzzRun
open Execution RunLockStep SeedCampaign SeedHistory

set_option autoImplicit false

/-- The record from the upper half of `device_id` on. -/
abbrev deviceTail : Set Nat := Set.Ici (deviceIdOffset + 2)

theorem region_tail {first length : Nat} (behind : deviceIdOffset + 2 ≤ first) :
    region first length ⊆ deviceTail := by
  intro position member
  exact Nat.le_trans behind (Set.mem_Ico.mp member).1

theorem packet_tail : Set.Ici pktOffset ⊆ deviceTail := Set.Ici_subset_Ici.mpr (by decide)

theorem load_field_tail (offset : Nat) : Confined Set.univ deviceTail (loadField offset) :=
  confined_load_field fun _ _ => Set.mem_univ _

theorem save_field_tail {offset : Nat} (value : UInt32) (behind : deviceIdOffset + 2 ≤ offset) :
    Confined Set.univ deviceTail (saveField offset value) := by
  apply confined_save_field value (fun _ _ => Set.mem_univ _)
  intro index _
  exact Nat.le_trans behind (Nat.le_add_right _ _)

theorem run_layer_mutator_tail (chosen : Option LayerMutator) :
    Confined Set.univ deviceTail (runLayerMutator chosen) := by
  have behind {reach : Set Nat} {first length : Nat} {store : Store} {program : Program Rand Nat}
      (frame : ConfinedFrom store reach (region first length) program)
      (start : deviceIdOffset + 2 ≤ first) : ConfinedFrom store Set.univ deviceTail program :=
    frame.mono (Set.subset_univ _) (region_tail start)
  intro store
  cases chosen with
  | none => exact confined_pure 0 store
  | some layer =>
      cases layer with
      | llData => exact behind (ll_data_confined store) (by decide)
      | l2cap => exact behind (l2cap_confined store) (by decide)
      | att => exact behind (att_confined store) (by decide)
      | sm => exact behind (sm_confined store) (by decide)
      | llAdvertising => exact behind (ll_advertising_confined store) (by decide)

theorem mutate_strategy_tail : Confined Set.univ deviceTail mutateStrategy := by
  apply confined_bind (redraw_len_confined.mono (Set.subset_univ _) (region_tail (by decide)))
  intro _
  apply confined_bind (load_field_tail _)
  intro len
  apply confined_bind (choose_layer_confined.mono (Set.subset_univ _) (Set.empty_subset _))
  intro chosen
  apply confined_bind (run_layer_mutator_tail chosen)
  intro ret
  apply (header_and_mark_confined ret len.toUInt8).mono (Set.subset_univ _)
  exact Set.union_subset (region_tail (by decide)) packet_tail

theorem full_stack_tail (config : PktselConfig) (idx : Nat) :
    Confined Set.univ deviceTail (MutatorFullStack2.mutatePkt config idx) := by
  apply confined_bind (load_field_tail _)
  intro len
  apply confined_if fun _ => confined_pure 0
  intro _ store
  have selected := should_mutate_store config idx store
  apply ensures_bind
  apply selected.mono
  · rintro chosen _ rfl
    exact confined_if (fun _ => mutate_strategy_tail) (fun _ => confined_pure 0) _
  · intro _ _ absurd
    exact absurd.elim

theorem random_tail (idx : Nat) :
    Confined Set.univ deviceTail (MutatorRandom.mutatePkt idx) := by
  apply confined_bind confined_rand
  intro _
  apply confined_if fun _ => confined_pure 0
  intro _
  apply confined_bind
  · apply random_layer_rewrites.mono (Set.Subset.refl _)
    exact Set.union_subset (region_tail (by decide)) packet_tail
  · intro ret
    exact confined_bind (confined_whenever fun _ => save_field_tail 1 (by decide))
      fun _ => confined_pure ret

theorem afl_tail (idx : Nat) : Confined Set.univ deviceTail (MutatorAfl4.mutatePkt idx) := by
  have strategy : Confined Set.univ deviceTail MutatorAfl4.mutateStrategy := by
    apply confined_bind (load_field_tail _)
    intro _
    apply confined_bind confined_rand
    intro _
    apply confined_bind (confined_remainder _ _)
    intro _
    apply confined_bind (save_field_tail _ (by decide))
    intro _
    apply confined_bind (load_field_tail _)
    intro len
    apply confined_bind
    · exact (MutatorAfl4.afl_mutate_havoc_confined _ _).mono (Set.subset_univ _)
        (region_tail (by decide))
    · intro _
      apply confined_bind (save_field_tail _ (by decide))
      intro _
      exact confined_bind (save_field_tail _ (by decide)) fun _ => confined_pure 1
  apply confined_bind strategy
  intro result
  apply confined_bind (load_field_tail _)
  intro _
  apply confined_bind (load_field_tail _)
  intro _
  exact confined_bind (confined_whenever fun _ => save_field_tail _ (by decide))
    fun _ => confined_pure result

/-- Whichever mutator is linked, it writes nothing before the upper half of
`device_id`, for every packet, length and limit. -/
theorem mutate_pkt_tail (build : Build) (idx : Nat) :
    Confined Set.univ deviceTail (mutatePkt build idx) := by
  cases build with
  | fieldAware config => exact full_stack_tail config idx
  | random => exact random_tail idx
  | afl => exact afl_tail idx

theorem run_mutator_device_id {build : Build} {idx ret : Nat} {beyond : Memory} {packet : BlePkt}
    {draws : Stream' Rand} {after : Machine Rand} (device : packet.deviceId = 1)
    (run : runMutator (mutatePkt build idx) beyond packet draws = .ok ret after) :
    (recordOf after.store).deviceId ≠ 0 := by
  have frame : Within Set.univ deviceTail (place packet beyond) after.store :=
    Ensures.returned (mutate_pkt_tail build idx (place packet beyond)) run
  have placed : fieldAt (place packet beyond).memory (packetAddress + deviceIdOffset) = 1 :=
    (congrArg BlePkt.deviceId (record_of_place packet beyond)).trans device
  have lowByte : after.store.memory (packetAddress + deviceIdOffset) =
      (place packet beyond).memory (packetAddress + deviceIdOffset) :=
    frame.unchanged _ (by decide)
  intro zero
  have before := byte_of_field_at (place packet beyond).memory (packetAddress + deviceIdOffset) 0
    (by decide)
  have behind := byte_of_field_at after.store.memory (packetAddress + deviceIdOffset) 0 (by decide)
  have gone : fieldAt after.store.memory (packetAddress + deviceIdOffset) = 0 := zero
  rw [placed] at before
  rw [gone] at behind
  have equal : byteOf (0 : UInt32).toBitVec 0 = byteOf (1 : UInt32).toBitVec 0 :=
    behind.trans (lowByte.trans before.symm)
  exact absurd equal (by decide)

/-- No packet is of device 0. -/
def Alive (packets : List BlePkt) : Prop := ∀ packet ∈ packets, packet.deviceId ≠ 0

theorem add_pkt_alive {pktRec : PktRecord} {packet : BlePkt} (alive : Alive pktRec.packets)
    (device : packet.deviceId ≠ 0) : Alive (addPktToSeqBuf pktRec packet).2.packets := by
  unfold addPktToSeqBuf
  split_ifs
  · intro other member
    rcases List.mem_append.mp member with earlier | last
    · exact alive other earlier
    · rwa [List.mem_singleton.mp last]
  · exact alive

theorem init_serves_alive {history : List Served} {place : Option InitPlace}
    {pktRec : PktRecord} (serves : Serves initServer history place pktRec) :
    Alive pktRec.packets := by
  induction serves with
  | start => exact List.forall_mem_nil _
  | @answer history place pktRec request input ack added next earlier turn induction =>
      cases place with
      | loop vars =>
          obtain ⟨-, record, -⟩ := init_loop_turn turn
          rw [record]
          split_ifs with device
          · apply add_pkt_alive induction
            rw [device]
            decide
          · exact induction
      | terminating maxDeltaIndex =>
          cases turn
          exact induction

theorem fuzz_serves_alive {build : Build} {corpus : List BlePkt} {history : List Served}
    {place : Option (FuzzPlace corpus)} {pktRec : PktRecord}
    (serves : Serves (fuzzServer build corpus) history place pktRec) : Alive pktRec.packets := by
  induction serves with
  | start => exact List.forall_mem_nil _
  | @answer history place pktRec request input ack added next earlier turn induction =>
      cases place with
      | loop i =>
          rcases fuzz_loop_turn turn with ⟨device, ⟨ret, after, run, same⟩, record, -⟩ | passed
          · have answered : recordOf after.store = ack := same
            rw [record]
            apply add_pkt_alive induction
            rw [← answered]
            exact run_mutator_device_id ((copy_ble_pkt_device_id _ _).trans device) run
          · rw [passed.2.2.1]
            exact induction
      | trailing =>
          cases turn
          exact induction
      | terminating =>
          cases turn
          exact induction

theorem collect_alive (outDir : String) (first : CollectRun) :
    SeedsHold Alive (first.fuzzer outDir) := by
  refine ⟨collect_bounded outDir _ (run_saves_within init_keeps_bound first.reached), ?_⟩
  intro seed member
  obtain ⟨save, kept, rfl⟩ := List.mem_map.mp member
  obtain ⟨history, place, pktRec, serves, -, written⟩ :=
    run_saves_served first.reached save (List.mem_of_mem_filter kept)
  change Alive (mapSeed save.2).packets
  rw [written, mapped_saved (init_keeps_bound _ _ _ serves).1]
  exact init_serves_alive serves

theorem history_alive {outDir : String} {first fuzzer : FuzzerState} {runs : List SeedRun}
    (history : History outDir first runs fuzzer) (start : SeedsHold Alive first) :
    SeedsHold Alive fuzzer := by
  induction history with
  | start => exact start
  | fuzz run earlier gone induction =>
      obtain ⟨place, serves⟩ := run.serves
      exact induction.after_run (fuzz_serves_alive serves) _
  | restart messages listing earlier listed induction => exact induction.restart messages listed

theorem fuzz_react_turns {build : Build} {corpus : List BlePkt} (alive : Alive corpus)
    (place : FuzzPlace corpus) (pktRec : PktRecord) (request : BlePkt) (input : Input) :
    fuzzReact build corpus place pktRec request input ≠ .spins := by
  intro spins
  cases place with
  | loop i =>
      simp only [fuzzReact] at spins
      split_ifs at spins with device live
      · split at spins
        · cases spins
        · cases spins
      · exact live (alive _ (List.getElem_mem _))
  | trailing => cases spins
  | terminating => cases spins

theorem run_never_spins {Place : Type} {setup : Setup Place}
    (turns : ∀ place pktRec request input,
      setup.server.react place pktRec request input ≠ .spins)
    {messages : List Message} {actions : List Action} {state : RunState Place}
    (run : fuzzOne setup messages actions = some state) : state.interceptor ≠ .spinning := by
  have preserved : Preserves (step setup) fun state => state.interceptor ≠ .spinning := by
    intro state action next taken before
    have shape := step_turn taken
    cases shape with
    | @spin place request input holds =>
        simp only [step, process, holds] at taken
        split at taken
        · cases taken
        · exact absurd ‹_› (turns place state.pktRec request input)
        · cases taken
    | receive => simp
    | answer => simp
    | crash => simp
    | acknowledge => simp
    | acknowledgeLast => simp
    | finish => simp
    | alarm => simp
    | recreate => simp
    | _ => exact before
  apply exec_preserves preserved run
  simp [RunState.start]

/-- After any chain of runs from a collected seed no packet of a seed is of device 0,
and no run on one of them reaches the error loop. Restarts are included as far as the
alarm does not come between the count and the packet of `add_pkt_to_seq_buf`, which
are one step here. -/
theorem error_spin_unreachable (outDir : String) (first : CollectRun) (runs : List SeedRun)
    (fuzzer : FuzzerState) (history : History outDir (first.fuzzer outDir) runs fuzzer) :
    (∀ seed ∈ fuzzer.seeds, ∀ slot ∈ (mapSeed seed.2).packets, slot.deviceId ≠ 0) ∧
    ∀ name file, fuzzer.seeds.lookup name = some file →
      ∀ build attackerStatus messages actions state,
        fuzzOne ((Mode.fuzz build (mapSeed file).packets).setup attackerStatus) messages actions =
          some state → state.interceptor ≠ .spinning := by
  have holds := history_alive history (collect_alive outDir first)
  refine ⟨holds.packets, ?_⟩
  intro name file opened build attackerStatus messages actions state run
  have alive : Alive (mapSeed file).packets := holds.packets (name, file) (opened_member opened)
  exact run_never_spins (fuzz_react_turns alive) run

/-- A campaign whose second seed is the record of a run on the first. -/
theorem answered_seed_alive : ∃ (first : CollectRun) (run : SeedRun) (fuzzer : FuzzerState)
    (slot : BlePkt), History "seed" (first.fuzzer "seed") [run] fuzzer ∧
      (∃ seed ∈ fuzzer.seeds, (mapSeed seed.2).packets = [slot]) ∧ slot.deviceId ≠ 0 := by
  obtain ⟨first, entry, file, slot, collected⟩ := headed_collected "seed"
  obtain ⟨after, mutates, -⟩ := quiet_run (copyBlePkt (headedPacket 27) slot).2
  obtain ⟨run, same, -, edge, -, served⟩ := one_slot_run collected.replayable
    (.fieldAware mixedConfig) 27 quietInput oneEdge.traceBits mutates
  have untouched : run.fuzzer.coverage.virginBits = setupShm.virginBits := by
    rw [same]
    exact collected.virginBits
  have packets : run.state.pktRec.packets = [recordOf after.store] := by
    rw [served.recorded]
    exact (add_pkt_packets _ _ (by decide)).2
  have single : run.state.pktRec.count ≤ maxPacketCountPerIter := by
    rw [PktRecord.count, packets]
    exact Nat.succ_pos _
  obtain ⟨path, kept⟩ := edge_kept "seed" untouched
    (rfl : (run.finished .timeout).counted = true) edge
  have empty : History "seed" (first.fuzzer "seed") [] run.fuzzer := by
    rw [same]
    exact .start
  have history := empty.fuzz run served.gone
  have saved : (path, saveSeqBufToFile2 run.state.pktRec) ∈
      (afterRun "seed" run.fuzzer run.state.queue (run.finished .timeout)).seeds := by
    unfold afterRun
    rw [kept]
    exact List.mem_cons_self
  have mapped : (mapSeed (saveSeqBufToFile2 run.state.pktRec)).packets = [recordOf after.store] := by
    rw [mapped_saved single, packets]
  refine ⟨first, run, _, recordOf after.store, history, ⟨_, saved, mapped⟩, ?_⟩
  apply (error_spin_unreachable "seed" first [run] _ history).1 _ saved
  rw [mapped]
  exact List.mem_singleton_self _

end Blueman.ErrorSpin
