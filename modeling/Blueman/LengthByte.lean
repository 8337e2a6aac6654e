import Blueman.MutatorFullStack2Flag
import Blueman.SeedHistory
import Blueman.Replay

/-!
# The length byte of the packets that are sent

`mutate_strategy` ends by writing the length byte of the link layer header from
`len`. `copy_ble_pkt` takes both from the slot, but cuts `len` to what the live
packet has room for, and leaves the byte. So a mutated slot is replayed with the
wrong byte when it is cut, unless the packet is selected and mutated again.
-/

namespace Blueman.LengthByte

open LittleEndian ByteMachine BlePacket MutateStrategy Mutator PacketSelection MutatorFullStack2
open MutatorFullStack2Frame MutatorFullStack2Flag MutatorBuild PacketRecord RunOutcome Coverage
open Interceptor FuzzRun RunLockStep SeedCampaign SeedHistory

set_option autoImplicit false

def HeaderLen (packet : BlePkt) : Prop := packet.lengthByte = (packet.len - 5).toUInt8

structure Live (packet : BlePkt) : Prop where
  header : packet.lengthByte.toUInt32 = packet.len - 5
  room : packet.len ≤ packet.maxPayloadLen + 5
  limit : packet.maxPayloadLen ≤ 250

theorem Live.header_len {packet : BlePkt} (live : Live packet) : HeaderLen packet := by
  rw [HeaderLen, ← live.header, UInt8.toUInt8_toUInt32]

def HeaderAt (store : Store) : Prop :=
  store.memory lenByte = (fieldOf store lenOffset - 5).toUInt8

theorem header_len_of_store {store : Store} (header : HeaderAt store) :
    HeaderLen (recordOf store) := by
  rw [HeaderLen, length_byte, recordOf, of_memory_pkt_get]
  exact header

theorem header_and_checksum (len : UInt32) : len - 2 - 3 = len - 5 := by grind

theorem rewrite_header_len_header (store : Store) :
    Ensures rewriteHeaderLen store (fun _ after => HeaderAt after) fun _ _ => True := by
  apply ensures_bind
  apply ensures_load_field
  apply ensures_save
  have sameLen : fieldOf (((store.touch (List.range' (packetAddress + lenOffset) 4)).put
      (getLlDataHeader pktOffset + 1) (fieldOf store lenOffset - 2 - 3).toUInt8)) lenOffset =
      fieldOf store lenOffset := by
    apply field_at_congr
    intro index inWord
    apply Function.update_of_ne
    simp only [packetAddress, lenOffset, getLlDataHeader, pktOffset]
    omega
  rw [HeaderAt, sameLen, ← header_and_checksum]
  change Function.update store.memory lenByte _ lenByte = _
  exact Function.update_self _ _ _

theorem mark_mutated_header (ret : Nat) (oldPayloadLen : UInt8) {store : Store}
    (header : HeaderAt store) :
    Ensures (markMutated ret oldPayloadLen : Program Rand Unit) store
      (fun _ after => HeaderAt after) fun _ _ => True := by
  apply Ensures.mono (mark_mutated_confined ret oldPayloadLen store) _ fun _ _ _ => trivial
  intro _ after frame
  have sameByte : after.memory lenByte = store.memory lenByte := by
    apply frame.unchanged
    intro inField
    have bounds := Set.mem_Ico.mp inField
    simp only [lenByte, pktOffset, mutatedOffset] at bounds
    omega
  have sameLen : fieldOf after lenOffset = fieldOf store lenOffset := by
    apply within_field_of frame
    intro index inWord inField
    have bounds := Set.mem_Ico.mp inField
    simp only [lenOffset, mutatedOffset] at bounds
    omega
  rw [HeaderAt, sameByte, sameLen]
  exact header

theorem mutate_strategy_header (store : Store) :
    Ensures mutateStrategy store (fun _ after => HeaderAt after) fun _ _ => True := by
  apply ensures_bind_any
  intro _ redrawn
  apply ensures_bind_any
  intro _ loaded
  apply ensures_bind_any
  intro chosen parsed
  apply ensures_bind_any
  intro ret mutated
  apply ensures_bind
  apply (rewrite_header_len_header mutated).mono _ fun _ _ _ => trivial
  intro _ rewritten header
  apply ensures_bind
  apply (mark_mutated_header ret _ header).mono _ fun _ _ _ => trivial
  intro _ after kept
  exact ensures_pure kept

/-- A packet that is selected, and not of length five, is handed to `mutate_strategy`. -/
theorem selected_run {config : PktselConfig} {idx : Nat} {packet : BlePkt} (beyond : Memory)
    {draws : Stream' Rand} (long : packet.len ≠ 5) (selected : selects config idx draws = true) :
    ∃ store rest, runMutator (MutatorFullStack2.mutatePkt config idx) beyond packet draws =
      mutateStrategy ⟨store, rest⟩ := by
  have loads : loadField lenOffset ⟨place packet beyond, draws⟩ =
      .ok packet.len ⟨(place packet beyond).touch (List.range' (packetAddress + lenOffset) 4),
        draws⟩ := by
    rw [← (place_field packet beyond).1]
    rfl
  have run := should_mutate_run config idx
    ((place packet beyond).touch (List.range' (packetAddress + lenOffset) 4)) draws
  unfold runMutator MutatorFullStack2.mutatePkt mutatePktWith
  rw [run_bind_ok loads]
  split_ifs with five
  · exact absurd five long
  · rw [run_bind_ok run, selected]
    exact ⟨_, _, rfl⟩

/-- The slot is not a mutated one, or its length and its header can be taken as
they are, or the packet is selected and not cut to one without a payload. -/
def KeepsHeader (config : PktselConfig) (idx : Nat) (slot live : BlePkt) (draws : Stream' Rand) :
    Prop :=
  slot.mutated ≠ 1 ∨
  (2 ≤ slot.len ∧ (slot.len ≤ live.maxPayloadLen + 5 ∨
    slot.len.toUInt8 = (live.maxPayloadLen + 5).toUInt8)) ∨
  selects config idx draws = true ∧ (slot.len < 2 ∨ live.maxPayloadLen ≠ 0)

theorem live_limit {live : BlePkt} (arrives : Live live) :
    (live.maxPayloadLen + 5).toNat = live.maxPayloadLen.toNat + 5 := by
  have limit : live.maxPayloadLen.toNat ≤ 250 := UInt32.le_iff_toNat_le.mp arrives.limit
  rw [UInt32.toNat_add]
  exact Nat.mod_eq_of_lt (by simp only [UInt32.toNat_ofNat]; omega)

theorem live_header_small {live : BlePkt} (arrives : Live live) : live.lengthByte.toNat ≤ 250 := by
  have limit : live.maxPayloadLen.toNat ≤ 250 := UInt32.le_iff_toNat_le.mp arrives.limit
  have room := UInt32.le_iff_toNat_le.mp arrives.room
  have header := congrArg UInt32.toNat arrives.header
  rw [live_limit arrives] at room
  rw [UInt8.toNat_toUInt32, UInt32.toNat_sub] at header
  have byte := live.lengthByte.toNat_lt
  have five : (5 : UInt32).toNat = 5 := rfl
  omega

theorem copied_pkt {slot : BlePkt} (live : BlePkt) (mutated : slot.mutated = 1) :
    (copyBlePkt live slot).2.len = copyBlePktLen live slot ∧
      (copyBlePkt live slot).2.lengthByte =
        if 1 < (copyBlePktLen live slot).toNat then slot.lengthByte else live.lengthByte := by
  simp only [length_byte]
  unfold copyBlePkt
  rw [if_pos mutated]
  exact ⟨rfl, memcpy_pkt_get _ _ _ 1 (by decide)⟩

theorem copied_header_iff {slot live : BlePkt} (arrives : Live live) (recorded : HeaderLen slot)
    (mutated : slot.mutated = 1) :
    HeaderLen (copyBlePkt live slot).2 ↔ 2 ≤ slot.len ∧ (slot.len ≤ live.maxPayloadLen + 5 ∨
      slot.len.toUInt8 = (live.maxPayloadLen + 5).toUInt8) := by
  obtain ⟨len, byte⟩ := copied_pkt live mutated
  have limit := live_limit arrives
  have least : 2 ≤ slot.len ↔ 2 ≤ slot.len.toNat := UInt32.le_iff_toNat_le
  rw [HeaderLen, len, byte, least]
  unfold copyBlePktLen
  by_cases cut : slot.len > live.maxPayloadLen + 5
  · have longer : live.maxPayloadLen.toNat + 5 < slot.len.toNat := by
      rw [← limit]
      exact UInt32.lt_iff_toNat_lt.mp cut
    have notShort : ¬slot.len ≤ live.maxPayloadLen + 5 := UInt32.not_le.mpr cut
    rw [if_pos cut, if_pos (by omega), show slot.lengthByte = _ from recorded, UInt32.toUInt8_sub,
      UInt32.toUInt8_sub, UInt8.sub_left_inj]
    constructor
    · exact fun same => ⟨by omega, .inr same⟩
    · exact fun keeps => keeps.2.resolve_left notShort
  · rw [if_neg cut]
    constructor
    · intro same
      refine ⟨?_, .inl (UInt32.not_lt.mp cut)⟩
      by_contra short
      rw [if_neg (by omega)] at same
      have small := live_header_small arrives
      rw [same, UInt32.toNat_toUInt8, UInt32.toNat_sub] at small
      have five : (5 : UInt32).toNat = 5 := rfl
      omega
    · rintro ⟨long, -⟩
      rw [if_pos (by omega)]
      exact recorded

/-- The mutator passes over the copy of a slot: it is of length five or not selected. -/
def Passes (config : PktselConfig) (idx : Nat) (slot live : BlePkt) (draws : Stream' Rand) : Prop :=
  (copyBlePkt live slot).2.len = 5 ∨ selects config idx draws = false

theorem passed_header_iff {config : PktselConfig} {idx : Nat} {slot live : BlePkt}
    {draws : Stream' Rand} (passes : Passes config idx slot live draws) (arrives : Live live)
    (recorded : HeaderLen slot) :
    HeaderLen (copyBlePkt live slot).2 ↔ KeepsHeader config idx slot live draws := by
  by_cases mutated : slot.mutated = 1
  · rw [copied_header_iff arrives recorded mutated, KeepsHeader]
    constructor
    · exact fun taken => .inr (.inl taken)
    · rintro (unmutated | taken | ⟨selected, roomy⟩)
      · exact absurd mutated unmutated
      · exact taken
      · have five := passes.resolve_right (by rw [selected]; decide)
        rw [(copied_pkt _ mutated).1] at five
        unfold copyBlePktLen at five
        split_ifs at five with cut
        · have none : live.maxPayloadLen = 0 := by grind
          have below := roomy.resolve_right (fun some => some none)
          rw [none] at cut
          exact absurd (UInt32.lt_trans below (by decide)) (UInt32.not_lt.mpr (UInt32.le_of_lt cut))
        · refine ⟨?_, .inl (UInt32.not_lt.mp cut)⟩
          rw [five]
          decide
  · rw [copy_ble_pkt_unmutated _ _ mutated]
    exact ⟨fun _ => .inl mutated, fun _ => arrives.header_len⟩

theorem mutated_keeps_header {config : PktselConfig} {idx : Nat} {slot live : BlePkt}
    {draws : Stream' Rand} (long : (copyBlePkt live slot).2.len ≠ 5)
    (selected : selects config idx draws = true) : KeepsHeader config idx slot live draws := by
  by_cases mutated : slot.mutated = 1
  · by_cases none : live.maxPayloadLen = 0
    · right
      by_cases short : slot.len < 2
      · exact .inr ⟨selected, .inl short⟩
      · left
        refine ⟨UInt32.not_lt.mp short, .inl ?_⟩
        apply UInt32.not_lt.mp
        intro cut
        apply long
        rw [(copied_pkt _ mutated).1, copyBlePktLen, if_pos cut, none]
        decide
    · exact .inr (.inr ⟨selected, .inr none⟩)
  · exact .inl mutated

theorem answered_header_iff {config : PktselConfig} {slot : BlePkt} {index : Nat}
    {served : Served} (answered : AnsweredFromSlot (.fieldAware config) slot index served)
    (arrives : Live served.request) (recorded : HeaderLen slot) :
    HeaderLen served.ack ↔
      KeepsHeader config (index + 1) slot served.request served.input.draws := by
  obtain ⟨ret, after, run, ack⟩ := answered
  change runMutator (MutatorFullStack2.mutatePkt config (index + 1)) _ _ _ = _ at run
  by_cases passes : Passes config (index + 1) slot served.request served.input.draws
  · obtain ⟨unchanged, idle, record⟩ := unselected_unchanged config (index + 1)
      (copyBlePkt served.request slot).2 served.input.beyond served.input.draws passes
    rw [idle] at run
    cases run
    rw [← ack, record]
    exact passed_header_iff passes arrives recorded
  · obtain ⟨long, chosen⟩ := not_or.mp passes
    have selected : selects config (index + 1) served.input.draws = true := by simpa using chosen
    obtain ⟨store, rest, same⟩ := selected_run served.input.beyond long selected
    rw [same] at run
    have header := header_len_of_store ((mutate_strategy_header store).returned run)
    rw [ack] at header
    exact ⟨fun _ => mutated_keeps_header long selected, fun _ => header⟩

def AllHeaders (packets : List BlePkt) : Prop := ∀ packet ∈ packets, HeaderLen packet

/-- Every packet that is acknowledged, and every one that is recorded, has the
right header. -/
def Coherent (run : SeedRun) : Prop :=
  (∀ served ∈ run.state.answered, HeaderLen served.ack) ∧ AllHeaders run.state.pktRec.packets

def KeepsHeaders (run : SeedRun) : Prop :=
  ∀ config index served slot, run.build = .fieldAware config →
    run.slots[index]? = some served → run.corpus[index]? = some slot →
    KeepsHeader config (index + 1) slot served.request served.input.draws

structure Observed (run : SeedRun) : Prop where
  fieldAware : ∃ config, run.build = .fieldAware config
  live : ∀ served ∈ run.state.answered, Live served.request

theorem recorded_headers {limit : Nat} {history : List Served} {pktRec : PktRecord}
    (kept : Recorded limit history pktRec)
    (headers : ∀ served ∈ history, HeaderLen served.ack) : AllHeaders pktRec.packets := by
  intro packet member
  rw [kept.packets] at member
  obtain ⟨served, taken, rfl⟩ := List.mem_map.mp member
  exact headers served (List.mem_of_mem_filter (List.mem_of_mem_take taken))

theorem run_coherent_iff {run : SeedRun} (observed : Observed run)
    (seeds : SeedsHold AllHeaders run.fuzzer) : Coherent run ↔ KeepsHeaders run := by
  obtain ⟨config, build⟩ := observed.fieldAware
  obtain ⟨place, serves⟩ := run.serves
  constructor
  · rintro ⟨acks, -⟩ other index served slot otherBuild turn found
    rw [build] at otherBuild
    cases otherBuild
    rw [build] at serves
    have member : served ∈ run.state.answered :=
      List.mem_of_mem_filter (List.mem_of_getElem? turn)
    apply (answered_header_iff (Replay.answered_from_slot serves turn found)
      (observed.live served member) (seeds.corpus slot (List.mem_of_getElem? found))).mp
    exact acks served member
  · intro keeps
    have acks : ∀ served ∈ run.state.answered, HeaderLen served.ack := by
      intro served member
      have arrives := observed.live served member
      rcases fuzz_serves_turns serves served member with
        ⟨index, slot, turn, found, answered⟩ | ⟨len, pkt⟩
      · rw [build] at answered
        apply (answered_header_iff answered arrives
          (seeds.corpus slot (List.mem_of_getElem? found))).mpr
        exact keeps config index served slot build turn found
      · rw [HeaderLen, BlePkt.lengthByte, len, pkt]
        exact arrives.header_len
    exact ⟨acks, recorded_headers (run.recorded seeds.bounded) acks⟩

section

variable {outDir : String} {first fuzzer : FuzzerState} {runs : List SeedRun}

theorem history_headers (history : History outDir first runs fuzzer)
    (seeds : SeedsHold AllHeaders first) (coherent : ∀ run ∈ runs, Coherent run) :
    SeedsHold AllHeaders fuzzer := by
  induction history with
  | start => exact seeds
  | @fuzz runs run fault earlier gone induction =>
      obtain ⟨before, last⟩ := List.forall_mem_append.mp coherent
      exact (induction before).after_run (last run List.mem_cons_self).2 fault
  | restart messages listing earlier listed induction =>
      exact (induction coherent).restart messages listed

theorem history_coherent_iff (history : History outDir first runs fuzzer)
    (seeds : SeedsHold AllHeaders first) (observed : ∀ run ∈ runs, Observed run) :
    (∀ run ∈ runs, Coherent run) ↔ ∀ run ∈ runs, KeepsHeaders run := by
  induction history with
  | start =>
      constructor
      · intro _ run member
        cases member
      · intro _ run member
        cases member
  | @fuzz runs run fault earlier gone induction =>
      obtain ⟨before, last⟩ := List.forall_mem_append.mp observed
      rw [List.forall_mem_append, List.forall_mem_append, List.forall_mem_singleton,
        List.forall_mem_singleton, ← induction before]
      apply and_congr_right
      intro coherent
      exact run_coherent_iff (last run List.mem_cons_self) (history_headers earlier seeds coherent)
  | restart messages listing earlier listed induction => exact induction observed

end

theorem init_record_headers {history : List Served} {place : Option InitPlace}
    {pktRec : PktRecord} (serves : Serves initServer history place pktRec)
    (live : ∀ served ∈ history, Live served.request) : AllHeaders pktRec.packets := by
  have passed {front : List Served} (passed : Passed front)
      (live : ∀ served ∈ front, Live served.request) :
      ∀ served ∈ front, HeaderLen served.ack := by
    intro served member
    rw [passed served member]
    exact (live served member).header_len
  have shape := init_serves_shape serves
  cases place with
  | none =>
      obtain ⟨front, final, rfl, same, kept, -⟩ := shape
      exact recorded_headers kept
        (passed same fun served member => live served (List.mem_append_left _ member))
  | some place =>
      cases place with
      | loop vars => exact recorded_headers shape.2.1 (passed shape.1 live)
      | terminating maxDeltaIndex => exact recorded_headers shape.2.1 (passed shape.1 live)

theorem collected_headers {run : CollectRun} (outDir : String)
    (live : ∀ served ∈ run.state.answered, Live served.request) :
    SeedsHold AllHeaders (run.fuzzer outDir) := by
  refine ⟨collect_bounded outDir _ (run_saves_within init_keeps_bound run.reached), ?_⟩
  intro seed member
  obtain ⟨save, kept, rfl⟩ := List.mem_map.mp member
  have written := List.mem_of_mem_filter kept
  obtain ⟨history, place, pktRec, serves, front, same⟩ := run_saves_served run.reached save written
  change AllHeaders (mapSeed save.2).packets
  rw [same, mapped_saved (init_keeps_bound _ _ _ serves).1]
  exact init_record_headers serves fun served member => live served (front.subset member)

/-- From the first seed on, through runs of the field-aware mutator on live
packets, the last of them perhaps not yet over: every packet that is acknowledged
or recorded has the right header exactly if every run keeps the headers. -/
theorem acknowledged_headers_iff (outDir : String) (first : CollectRun) (runs : List SeedRun)
    (run : SeedRun) (history : History outDir (first.fuzzer outDir) runs run.fuzzer)
    (live : ∀ served ∈ first.state.answered, Live served.request)
    (observed : ∀ other ∈ runs ++ [run], Observed other) :
    (∀ other ∈ runs ++ [run], Coherent other) ↔ ∀ other ∈ runs ++ [run], KeepsHeaders other := by
  have seeds := collected_headers outDir live
  obtain ⟨before, last⟩ := List.forall_mem_append.mp observed
  rw [List.forall_mem_append, List.forall_mem_append, List.forall_mem_singleton,
    List.forall_mem_singleton, ← history_coherent_iff history seeds before]
  apply and_congr_right
  intro coherent
  exact run_coherent_iff (last run List.mem_cons_self) (history_headers history seeds coherent)

theorem headed_live {packet : BlePkt} (arrived : headed packet = true) : Live packet := by
  obtain ⟨front, limit⟩ := Bool.and_eq_true_iff.mp arrived
  obtain ⟨header, len⟩ := Bool.and_eq_true_iff.mp front
  refine ⟨?_, ?_, ?_⟩
  · rw [beq_iff_eq.mp header, beq_iff_eq.mp len]
    decide
  · rw [beq_iff_eq.mp limit, beq_iff_eq.mp len]
    decide
  · rw [beq_iff_eq.mp limit]
    decide

theorem headed_packets_live : Live (headedPacket 37) ∧ Live (headedPacket 27) := by
  refine ⟨⟨?_, by decide, by decide⟩, ⟨?_, by decide, by decide⟩⟩
  · decide +kernel
  · decide +kernel

def lengthenedInput : Input := ⟨[0, 0, 37, 25].map drawnOf ++ₛ Stream'.const (drawnOf 0), zeros, 0⟩

def lengthened : EStateM.Result Fault (Machine Rand) Nat → Bool
  | .ok _ after =>
      let packet := recordOf after.store
      packet.deviceId == 1 && packet.mutated == 1 && packet.len == 42
  | .error _ _ => false

theorem lengthened_run : lengthened (runMutator (mutatePkt (.fieldAware mixedConfig) 1) zeros
    (headedPacket 37) lengthenedInput.draws) = true := by
  decide +kernel

theorem lengthened_returns : ∃ ret after,
    runMutator (mutatePkt (.fieldAware mixedConfig) 1) lengthenedInput.beyond (headedPacket 37)
      lengthenedInput.draws = .ok ret after ∧ (recordOf after.store).deviceId = 1 ∧
      (recordOf after.store).mutated = 1 ∧ (recordOf after.store).len = 42 := by
  have facts := lengthened_run
  change lengthened (runMutator _ lengthenedInput.beyond _ _) = true at facts
  cases mutates : runMutator (mutatePkt (.fieldAware mixedConfig) 1) lengthenedInput.beyond
      (headedPacket 37) lengthenedInput.draws with
  | error fault after =>
      rw [mutates] at facts
      cases facts
  | ok ret after =>
      rw [mutates] at facts
      obtain ⟨facts, len⟩ := Bool.and_eq_true_iff.mp facts
      obtain ⟨device, mutated⟩ := Bool.and_eq_true_iff.mp facts
      exact ⟨ret, after, rfl, beq_iff_eq.mp device, beq_iff_eq.mp mutated, beq_iff_eq.mp len⟩

theorem served_one_observed {run : SeedRun} {maxLen : UInt32} {input : Input} {ack : BlePkt}
    {pktRec : PktRecord} (build : run.build = .fieldAware mixedConfig)
    (served : ServedOne run.state ⟨headedPacket maxLen, input, ack⟩ pktRec)
    (live : Live (headedPacket maxLen)) : Observed run := by
  refine ⟨⟨_, build⟩, ?_⟩
  intro other member
  rw [served.answered] at member
  rw [List.mem_singleton.mp member]
  exact live

/-- The first seed replayed once, unselected. -/
theorem replayed_coherent : ∃ (first : CollectRun) (run : SeedRun),
    History "seed" (first.fuzzer "seed") [] run.fuzzer ∧ run.state.answered.length = 1 ∧
      Coherent run := by
  obtain ⟨first, entry, file, slot, collected⟩ := headed_collected "seed"
  obtain ⟨after, mutates, -⟩ := quiet_run (copyBlePkt (headedPacket 27) slot).2
  obtain ⟨run, same, build, -, ahead, served⟩ := one_slot_run collected.replayable
    (.fieldAware mixedConfig) 27 quietInput (fun _ => 0) mutates
  have history : History "seed" (first.fuzzer "seed") [] run.fuzzer := by
    rw [same]
    exact .start
  have observed := served_one_observed build served headed_packets_live.2
  have coherent := acknowledged_headers_iff "seed" first [] run history
    (fun other member => headed_live (collected.arrived other member))
    (List.forall_mem_singleton.mpr observed)
  refine ⟨first, run, history, by rw [served.answered]; rfl, ?_⟩
  apply coherent.mpr _ run List.mem_cons_self
  rw [List.nil_append, List.forall_mem_singleton]
  intro config index other otherSlot otherBuild turn found
  left
  have single : index = 0 := by
    have below := (List.getElem?_eq_some_iff.mp turn).1
    have short : run.slots.length ≤ run.state.answered.length := List.length_filter_le _ _
    rw [served.answered] at short
    exact Nat.lt_one_iff.mp (Nat.lt_of_lt_of_le below short)
  rw [single, ← List.head?_eq_getElem?, ahead] at found
  cases found
  rw [collected.unmutated]
  decide

theorem lengthened_cut {slot : BlePkt} (mutated : slot.mutated = 1) (len : slot.len = 42) :
    ¬KeepsHeader mixedConfig 1 slot (headedPacket 27) quietInput.draws := by
  rintro (unmutated | ⟨-, taken⟩ | ⟨selected, -⟩)
  · exact unmutated mutated
  · rw [len] at taken
    exact absurd taken (by decide)
  · rw [quiet_unselected] at selected
    cases selected

theorem first_slot_keeps {run : SeedRun} {served : Served} {pktRec : PktRecord} {slot : BlePkt}
    (build : run.build = .fieldAware mixedConfig) (answered : ServedOne run.state served pktRec)
    (device : served.request.deviceId = 1) (ahead : run.corpus.head? = some slot)
    (keeps : KeepsHeaders run) :
    KeepsHeader mixedConfig 1 slot served.request served.input.draws := by
  apply keeps mixedConfig 0 served slot build
  · rw [SeedRun.slots, answered.answered, Interceptor.recorded, List.filter_cons_of_pos]
    · rfl
    · exact beq_iff_eq.mpr device
  · rw [← List.head?_eq_getElem?]
    exact ahead

/-- The first seed is mutated in a packet with room for 42 bytes, and what was
recorded is replayed into one with room for 32. -/
theorem cut_slot_incoherent : ∃ (first : CollectRun) (runs : List SeedRun) (run : SeedRun),
    History "seed" (first.fuzzer "seed") runs run.fuzzer ∧
      (∀ served ∈ first.state.answered, Live served.request) ∧
      (∀ other ∈ runs ++ [run], Observed other) ∧ ¬∀ other ∈ runs ++ [run], Coherent other := by
  obtain ⟨first, entry, file, slot, collected⟩ := headed_collected "seed"
  have arrived := fun served member => headed_live (collected.arrived served member)
  have copied : (copyBlePkt (headedPacket 37) slot).2 = headedPacket 37 := by
    rw [copy_ble_pkt_unmutated]
    rw [collected.unmutated]
    decide
  obtain ⟨ret, after, mutates, device, mutated, len⟩ := lengthened_returns
  rw [← copied] at mutates
  obtain ⟨earlier, same, build, edge, -, served⟩ := one_slot_run collected.replayable
    (.fieldAware mixedConfig) 37 lengthenedInput oneEdge.traceBits mutates
  have untouched : earlier.fuzzer.coverage.virginBits = setupShm.virginBits := by
    rw [same]
    exact collected.virginBits
  obtain ⟨path, kept⟩ := edge_kept "seed" untouched
    (rfl : (earlier.finished .timeout).counted = true) edge
  have packets : earlier.state.pktRec.packets = [recordOf after.store] := by
    rw [served.recorded]
    exact (add_pkt_packets _ _ (by decide)).2
  obtain ⟨queued, replayable⟩ := kept_replayable kept
    (by rw [PktRecord.count, packets]; exact Nat.succ_pos _) served.messages
    (by rw [packets]; rfl) (by rw [device]; decide)
  obtain ⟨unchanged, replays, -⟩ := quiet_run
    (copyBlePkt (headedPacket 27) (recordOf after.store)).2
  obtain ⟨run, again, buildAgain, -, ahead, servedAgain⟩ := one_slot_run replayable
    (.fieldAware mixedConfig) 27 quietInput (fun _ => 0) replays
  have empty : History "seed" (first.fuzzer "seed") [] earlier.fuzzer := by
    rw [same]
    exact .start
  have history : History "seed" (first.fuzzer "seed") [earlier] run.fuzzer := by
    rw [again]
    exact .fuzz earlier empty served.gone
  have observed := served_one_observed build served headed_packets_live.1
  have observedAgain := served_one_observed buildAgain servedAgain headed_packets_live.2
  refine ⟨first, [earlier], run, history, arrived, ?_, ?_⟩
  · exact List.forall_mem_cons.mpr ⟨observed, List.forall_mem_singleton.mpr observedAgain⟩
  · intro coherent
    obtain ⟨before, last⟩ := List.forall_mem_append.mp coherent
    have seeds := history_headers history (collected_headers "seed" arrived) before
    have keeps := (run_coherent_iff observedAgain seeds).mp (last run List.mem_cons_self)
    have kept := first_slot_keeps buildAgain servedAgain rfl ahead keeps
    exact lengthened_cut mutated len kept

end Blueman.LengthByte
