import Blueman.SeedCampaign

/-!
# Recorded mutations, generation after generation

With the field-aware mutator a packet that is not selected is answered with what
its slot of the seed holds, as far as the live packet has room for it, and that
is recorded in the same slot again.
-/

namespace Blueman.Replay

open BlePacket Mutator PacketSelection MutatorBuild PacketRecord RunOutcome Interceptor FuzzRun
open RunLockStep SeedCampaign

set_option autoImplicit false

/-- A seed as a mapping of fixed size can hold it. -/
structure Seed where
  packets : List BlePkt
  fits : packets.length ≤ maxPacketCountPerIter

/-- The recorded packet is a mutated one, and the live packet has room for it. -/
structure Fits (slot live : BlePkt) : Prop where
  mutated : slot.mutated = 1
  maxPayloadLen : live.maxPayloadLen.toNat ≤ 255
  len : slot.len.toNat ≤ 255
  room : slot.len.toNat ≤ live.maxPayloadLen.toNat + 5

/-- The packet is mutated, and has the length and the bytes of the recorded one. -/
structure Replays (slot packet : BlePkt) : Prop where
  mutated : packet.mutated = 1
  len : packet.len = slot.len
  bytes : ∀ index, index < slot.len.toNat → packet.pkt.getD index 0 = slot.pkt.getD index 0

theorem Replays.trans {slot middle packet : BlePkt} (first : Replays slot middle)
    (second : Replays middle packet) : Replays slot packet := by
  refine ⟨second.mutated, second.len.trans first.len, ?_⟩
  intro index below
  rw [second.bytes index (by rwa [first.len]), first.bytes index below]

theorem Replays.fits {slot again live : BlePkt} (replays : Replays slot again)
    (fits : Fits slot live) : Fits again live := by
  refine ⟨replays.mutated, fits.maxPayloadLen, ?_, ?_⟩
  · rw [replays.len]
    exact fits.len
  · rw [replays.len]
    exact fits.room

/-- `copy_ble_pkt` does not cut a packet there is room for. -/
theorem copy_len_of_fits {slot live : BlePkt} (fits : Fits slot live) :
    copyBlePktLen live slot = slot.len := by
  have small := fits.maxPayloadLen
  have limit : (live.maxPayloadLen + 5).toNat = live.maxPayloadLen.toNat + 5 := by
    rw [UInt32.toNat_add]
    exact Nat.mod_eq_of_lt (by simp only [UInt32.toNat_ofNat]; omega)
  apply if_neg
  intro longer
  have above : (live.maxPayloadLen + 5).toNat < slot.len.toNat := UInt32.lt_iff_toNat_lt.mp longer
  rw [limit] at above
  exact absurd fits.room (Nat.not_le.mpr above)

theorem copy_replays {slot live : BlePkt} (fits : Fits slot live) :
    Replays slot (copyBlePkt live slot).2 := by
  unfold copyBlePkt
  rw [if_pos fits.mutated, copy_len_of_fits fits]
  refine ⟨rfl, rfl, ?_⟩
  intro index below
  have inside : index < blePktMaxLen := Nat.lt_of_lt_of_le below fits.len
  rw [pkt_get_d _ index inside, pkt_get_d _ index inside, memcpy_pkt_get _ _ _ index inside,
    if_pos below]

theorem answered_unselected {config : PktselConfig} {slot : BlePkt} {index : Nat} {served : Served}
    (answered : AnsweredFromSlot (.fieldAware config) slot index served)
    (unselected : selects config (index + 1) served.input.draws = false) :
    served.ack = (copyBlePkt served.request slot).2 := by
  obtain ⟨ret, after, run, same⟩ := answered
  obtain ⟨unchanged, idle, record⟩ := unselected_unchanged config (index + 1)
    (copyBlePkt served.request slot).2 served.input.beyond served.input.draws (.inr unselected)
  change runMutator (MutatorFullStack2.mutatePkt config (index + 1)) _ _ _ = _ at run
  rw [idle] at run
  cases run
  rw [← same, record]

/-- The packets of device 1 are answered from the slots in order, as long as
there are any. -/
theorem answered_from_slot {build : Build} {corpus : List BlePkt} {history : List Served}
    {place : Option (FuzzPlace corpus)} {pktRec : PktRecord} {index : Nat} {served : Served}
    {slot : BlePkt} (serves : Serves (fuzzServer build corpus) history place pktRec)
    (turn : (recorded history)[index]? = some served) (found : corpus[index]? = some slot) :
    AnsweredFromSlot build slot index served := by
  have inside : index < corpus.length := (List.getElem?_eq_some_iff.mp found).1
  have looped {front rest : List Served} (looped : Looped build corpus front)
      (full : (recorded front).length = corpus.length)
      (entry : (recorded (front ++ rest))[index]? = some served) :
      AnsweredFromSlot build slot index served := by
    rw [recorded, List.filter_append, List.getElem?_append_left] at entry
    · obtain ⟨other, here, answered⟩ := looped.slots index served entry
      rw [found] at here
      cases here
      exact answered
    · change index < (recorded front).length
      rwa [full]
  have shape := fuzz_serves_shape serves
  cases place with
  | none =>
      obtain ⟨front, last, final, rfl, before, full, -⟩ := shape
      exact looped before full turn
  | some place =>
      cases place with
      | terminating =>
          obtain ⟨front, last, rfl, before, full, -⟩ := shape
          exact looped before full turn
      | loop i =>
          obtain ⟨other, here, answered⟩ := shape.1.slots index served turn
          rw [found] at here
          cases here
          exact answered
      | trailing =>
          obtain ⟨other, here, answered⟩ := shape.1.slots index served turn
          rw [found] at here
          cases here
          exact answered

theorem recorded_in_slot {corpus : List BlePkt} {history : List Served} {pktRec : PktRecord}
    {index : Nat} {served : Served} (kept : Recorded corpus.length history pktRec)
    (turn : (recorded history)[index]? = some served) (inside : index < corpus.length) :
    pktRec.packets[index]? = some served.ack := by
  rw [kept.packets, List.getElem?_map, List.getElem?_take_of_lt inside, turn]
  rfl

/-- In a run on the seed, the packet answered from the slot was not selected. -/
structure Passes (config : PktselConfig) (index : Nat) {corpus : List BlePkt}
    (state : RunState (FuzzPlace corpus)) (served : Served) : Prop where
  turn : (recorded state.answered)[index]? = some served
  unselected : selects config (index + 1) served.input.draws = false

/-- Seeds that come from one with a packet in a slot, through runs that do not
select the slot and have room for the packet. -/
inductive Descends (index : Nat) (slot : BlePkt) : Seed → Prop
  | first (seed : Seed) (found : seed.packets[index]? = some slot) : Descends index slot seed
  | run {seed : Seed} (child : Seed) (config : PktselConfig) (attackerStatus : WaitStatus)
      (messages : List Message) (actions : List Action) {state : RunState (FuzzPlace seed.packets)}
      {served : Served} (earlier : Descends index slot seed)
      (run : fuzzOne ((Mode.fuzz (.fieldAware config) seed.packets).setup attackerStatus) messages
        actions = some state)
      (passes : Passes config index state served) (fits : Fits slot served.request)
      (saved : child.packets = (mapSeed (saveSeqBufToFile2 state.pktRec)).packets) :
      Descends index slot child

section

variable {config : PktselConfig} {attackerStatus : WaitStatus} {messages : List Message}
  {actions : List Action} {seed : Seed} {state : RunState (FuzzPlace seed.packets)}
  {index : Nat} {slot : BlePkt} {served : Served}

theorem passed_recorded
    (run : fuzzOne ((Mode.fuzz (.fieldAware config) seed.packets).setup attackerStatus) messages
      actions = some state)
    (passes : Passes config index state served) (found : seed.packets[index]? = some slot) :
    state.pktRec.packets[index]? = some served.ack ∧
      served.ack = (copyBlePkt served.request slot).2 := by
  obtain ⟨place, serves⟩ := (run_tracked run).serves
  constructor
  · apply recorded_in_slot (fuzz_serves_recorded serves seed.fits) passes.turn
    exact (List.getElem?_eq_some_iff.mp found).1
  · exact answered_unselected (answered_from_slot serves passes.turn found) passes.unselected

theorem mapped_record
    (run : fuzzOne ((Mode.fuzz (.fieldAware config) seed.packets).setup attackerStatus) messages
      actions = some state) :
    (mapSeed (saveSeqBufToFile2 state.pktRec)).packets = state.pktRec.packets := by
  obtain ⟨place, serves⟩ := (run_tracked run).serves
  have bounded := (fuzz_keeps_bound _ seed.fits _ _ _ serves).1
  apply (mmap_saved _ _ _).2
  exact Nat.lt_of_le_of_lt (Nat.le_trans bounded seed.fits) (by decide)

theorem descends_replays (descends : Descends index slot seed) (mutated : slot.mutated = 1) :
    ∃ again, seed.packets[index]? = some again ∧ Replays slot again := by
  induction descends with
  | first seed found => exact ⟨slot, found, mutated, rfl, fun _ _ => rfl⟩
  | @run seed child config attackerStatus messages actions state served earlier run passes fits
      saved induction =>
      obtain ⟨again, found, replays⟩ := induction
      obtain ⟨entry, copied⟩ := passed_recorded run passes found
      refine ⟨served.ack, ?_, replays.trans ?_⟩
      · rw [saved, mapped_record run]
        exact entry
      · rw [copied]
        exact copy_replays (replays.fits fits)

end

/-- The packet in a slot that is not selected is sent and recorded as the seed
has it, or as it came; and so it is through any number of such generations. -/
theorem replay_fidelity (seed : Seed) (config : PktselConfig) (attackerStatus : WaitStatus)
    (messages : List Message) (actions : List Action) (state : RunState (FuzzPlace seed.packets))
    (index : Nat) (slot : BlePkt) (served : Served)
    (run : fuzzOne ((Mode.fuzz (.fieldAware config) seed.packets).setup attackerStatus) messages
      actions = some state)
    (passes : Passes config index state served) :
    (seed.packets[index]? = some slot →
      state.pktRec.packets[index]? = some served.ack ∧
        (Fits slot served.request → Replays slot served.ack) ∧
        (slot.mutated ≠ 1 → served.ack = served.request)) ∧
    (Descends index slot seed → Fits slot served.request →
      state.pktRec.packets[index]? = some served.ack ∧ Replays slot served.ack) := by
  constructor
  · intro found
    obtain ⟨entry, copied⟩ := passed_recorded run passes found
    refine ⟨entry, ?_, ?_⟩
    · intro fits
      rw [copied]
      exact copy_replays fits
    · intro unmutated
      rw [copied, copy_ble_pkt_unmutated _ _ unmutated]
  · intro descends fits
    obtain ⟨again, found, replays⟩ := descends_replays descends fits.mutated
    obtain ⟨entry, copied⟩ := passed_recorded run passes found
    refine ⟨entry, replays.trans ?_⟩
    rw [copied]
    exact copy_replays (replays.fits fits)

def mutatedSeed : Seed := ⟨[mutatedSlot], by decide⟩

/-- The greatest result of `rand()` selects nothing. -/
def replayActions : List Action :=
  [.hook shortReception, .receive, .process ⟨fun _ => Fin.last _, fun _ => 0, 0⟩]

def replayRun : Option (RunState (FuzzPlace mutatedSeed.packets)) :=
  fuzzOne ((Mode.fuzz (.fieldAware MutatorFullStack2Frame.mixedConfig) mutatedSeed.packets).setup
    (.signaled sigkill)) [] replayActions

def unselectedOnce (state : RunState (FuzzPlace mutatedSeed.packets)) : Bool :=
  (recorded state.answered)[0]?.any fun served =>
    !selects MutatorFullStack2Frame.mixedConfig 1 served.input.draws &&
      served.request.maxPayloadLen == 27

theorem replay_run_unselected : replayRun.any unselectedOnce = true := by decide +kernel

theorem mutated_slot_replayed : ∃ state, replayRun = some state ∧
    ∃ packet, state.pktRec.packets[0]? = some packet ∧ Replays mutatedSlot packet := by
  obtain ⟨state, run, once⟩ := (Option.any_eq_true _ _).mp replay_run_unselected
  obtain ⟨served, turn, facts⟩ := (Option.any_eq_true _ _).mp once
  obtain ⟨unselected, room⟩ := Bool.and_eq_true_iff.mp facts
  have passes : Passes MutatorFullStack2Frame.mixedConfig 0 state served :=
    ⟨turn, (Bool.not_eq_true' _).mp unselected⟩
  have fits : Fits mutatedSlot served.request := by
    rw [beq_iff_eq] at room
    exact ⟨rfl, by rw [room]; decide, by decide, by rw [room]; decide⟩
  have replayed := (replay_fidelity mutatedSeed MutatorFullStack2Frame.mixedConfig
    (.signaled sigkill) [] replayActions state 0 mutatedSlot served run passes).2
  exact ⟨state, run, served.ack, replayed (.first mutatedSeed rfl) fits⟩

end Blueman.Replay
