import Blueman.DeltaPoint
import Blueman.SeedCampaign

/-!
# How many packets the first seed has

The interceptor counts, without ever starting again, the packets of device 1 after
which the coverage has not risen, and stops collecting with the 81st of them or with
the hundredth packet. So every first seed has between 81 and a hundred packets.
-/

namespace Blueman.CollectedLength

open BlePacket PacketRecord RunOutcome Coverage Interceptor FuzzRun RunLockStep Execution
open SeedCampaign DeltaPoint

set_option autoImplicit false

/-- How many readings are not greater than the one before. -/
def staleAfter : UInt32 → List UInt32 → Nat
  | _, [] => 0
  | before, reading :: rest => (if reading ≤ before then 1 else 0) + staleAfter reading rest

def stale (readings : List UInt32) : Nat := staleAfter 0 readings

theorem stale_after_append (before reading : UInt32) (readings : List UInt32) :
    staleAfter before (readings ++ [reading]) =
      staleAfter before readings + if reading ≤ readings.getLastD before then 1 else 0 := by
  induction readings generalizing before with
  | nil => exact Nat.add_comm _ _
  | cons first rest induction =>
      simp only [staleAfter, List.cons_append, induction, List.getLastD_cons]
      exact (Nat.add_assoc _ _ _).symm

theorem stale_append (readings : List UInt32) (reading : UInt32) :
    stale (readings ++ [reading]) =
      stale readings + if reading ≤ readings.getLastD 0 then 1 else 0 :=
  stale_after_append 0 reading readings

theorem stale_after_le (before : UInt32) (readings : List UInt32) :
    staleAfter before readings ≤ readings.length := by
  induction readings generalizing before with
  | nil => exact Nat.le_refl 0
  | cons first rest induction =>
      have later := induction first
      simp only [staleAfter, List.length_cons]
      split_ifs <;> omega

theorem stale_after_take (before : UInt32) (readings : List UInt32) (count : Nat) :
    staleAfter before (readings.take count) ≤ staleAfter before readings := by
  induction readings generalizing before count with
  | nil =>
      rw [List.take_nil]
  | cons first rest induction =>
      cases count with
      | zero => exact Nat.zero_le _
      | succ count =>
          simp only [List.take_succ_cons, staleAfter]
          exact Nat.add_le_add_left (induction first count) _

def Stops (readings : List UInt32) : Prop :=
  maxPacketCountPerIter ≤ readings.length ∨ 80 < stale readings

def StopsFirst (readings : List UInt32) : Prop :=
  Stops readings ∧ ∀ count < readings.length, ¬Stops (readings.take count)

theorem Stops.of_take {readings : List UInt32} {count : Nat} (stops : Stops (readings.take count)) :
    Stops readings := by
  have shorter : (readings.take count).length ≤ readings.length := List.length_take_le' _ _
  have fewer : stale (readings.take count) ≤ stale readings := stale_after_take 0 readings count
  cases stops with
  | inl full => exact .inl (Nat.le_trans full shorter)
  | inr risen => exact .inr (Nat.lt_of_lt_of_le risen fewer)

theorem stops_first_append {readings : List UInt32} {reading : UInt32} (goesOn : ¬Stops readings)
    (stops : Stops (readings ++ [reading])) : StopsFirst (readings ++ [reading]) := by
  refine ⟨stops, ?_⟩
  intro count before early
  rw [List.length_append, List.length_singleton] at before
  rw [List.take_append_of_le_length (Nat.le_of_lt_succ before)] at early
  exact goesOn early.of_take

theorem StopsFirst.bounds {readings : List UInt32} (first : StopsFirst readings) :
    81 ≤ readings.length ∧ readings.length ≤ maxPacketCountPerIter := by
  have most : maxPacketCountPerIter = 100 := rfl
  have counted : stale readings ≤ readings.length := stale_after_le 0 readings
  constructor
  · cases first.1 with
    | inl full => omega
    | inr risen => omega
  · by_contra more
    have earlier := first.2 maxPacketCountPerIter (Nat.lt_of_not_le more)
    apply earlier
    left
    rw [List.length_take]
    omega

def Counting (history : List Served) : Option InitPlace → Prop
  | some (.loop vars) => vars.cnt = stale (readings history) ∧ ¬Stops (readings history)
  | some (.terminating _) => StopsFirst (readings history)
  | none => ∃ front final, history = front ++ [final] ∧ StopsFirst (readings front)

theorem init_loop_counts {vars : InitVars} {pktRec added : PktRecord} {request ack : BlePkt}
    {input : Input} {next : Option InitPlace}
    (turn : initReact (.loop vars) pktRec request input = .answers ack added next)
    (device : request.deviceId = 1) (few : vars.cnt ≤ 80) :
    let counted := vars.cnt + if input.coverage ≤ vars.coverageCount then 1 else 0
    (maxPacketCountPerIter ≤ added.count ∨ 80 < counted) ∧
        (∃ maxDeltaIndex, next = some (.terminating maxDeltaIndex)) ∨
      ¬(maxPacketCountPerIter ≤ added.count ∨ 80 < counted) ∧
        ∃ updated, next = some (.loop updated) ∧ updated.cnt = counted := by
  simp only [initReact, device, if_true] at turn
  have kept : (updateDelta vars input.coverage (addPktToSeqBuf pktRec request).2.count).cnt =
      vars.cnt := by
    unfold updateDelta
    dsimp only
    split_ifs <;> rfl
  split_ifs at turn with full stays gone
  all_goals cases turn
  · exact .inl ⟨.inl full, _, rfl⟩
  · rw [if_pos stays]
    exact .inl ⟨.inr gone, _, rfl⟩
  · rw [if_pos stays]
    exact .inr ⟨not_or.mpr ⟨full, gone⟩, _, rfl, rfl⟩
  · rw [if_neg stays]
    exact .inr ⟨not_or.mpr ⟨full, Nat.not_lt_of_le few⟩, _, rfl, kept⟩

theorem init_loop_skips {vars : InitVars} {pktRec added : PktRecord} {request ack : BlePkt}
    {input : Input} {next : Option InitPlace}
    (turn : initReact (.loop vars) pktRec request input = .answers ack added next)
    (device : request.deviceId ≠ 1) (few : pktRec.count < maxPacketCountPerIter) :
    next = some (.loop vars) := by
  simp only [initReact, device, if_false, Nat.not_le_of_lt few] at turn
  cases turn
  rfl

theorem init_loop_count {history : List Served} {vars : InitVars} {pktRec added : PktRecord}
    {request ack : BlePkt} {input : Input} {next : Option InitPlace}
    (earlier : Serves initServer history (some (.loop vars)) pktRec)
    (turn : initReact (.loop vars) pktRec request input = .answers ack added next)
    (device : request.deviceId = 1) :
    added.count = (readings history ++ [input.coverage]).length := by
  obtain ⟨-, holds, few⟩ := init_serves_shape earlier
  obtain ⟨rfl, record, -⟩ := init_loop_turn turn
  have grown := (holds.add ⟨ack, input, ack⟩ device (Nat.le_refl _) few).count
  have length : (readings history).length = (recorded history).length := List.length_map _
  rw [recorded_append, if_pos device, List.length_append, List.length_singleton,
    Nat.min_eq_right few] at grown
  rw [record, if_pos device, grown, List.length_append, List.length_singleton, length]

theorem Counting.add {history : List Served} {vars : InitVars} {pktRec added : PktRecord}
    {request ack : BlePkt} {input : Input} {next : Option InitPlace}
    (earlier : Serves initServer history (some (.loop vars)) pktRec)
    (counting : Counting history (some (.loop vars)))
    (turn : initReact (.loop vars) pktRec request input = .answers ack added next)
    (device : request.deviceId = 1) : Counting (history ++ [⟨request, input, ack⟩]) next := by
  obtain ⟨counts, goesOn⟩ := counting
  have grown : readings (history ++ [⟨request, input, ack⟩]) =
      readings history ++ [input.coverage] := by
    rw [readings_append, if_pos device]
  have counted : stale (readings history ++ [input.coverage]) =
      vars.cnt + if input.coverage ≤ vars.coverageCount then 1 else 0 := by
    rw [stale_append, counts, (init_serves_measured earlier).last]
  have stops : Stops (readings history ++ [input.coverage]) ↔
      maxPacketCountPerIter ≤ added.count ∨
        80 < vars.cnt + if input.coverage ≤ vars.coverageCount then 1 else 0 := by
    rw [Stops, counted, init_loop_count earlier turn device]
  have few : vars.cnt ≤ 80 := by
    rw [counts]
    exact Nat.le_of_not_lt fun risen => goesOn (.inr risen)
  rcases init_loop_counts turn device few with ⟨ends, _, rfl⟩ | ⟨stays, updated, rfl, cnt⟩
  · rw [Counting, grown]
    exact stops_first_append goesOn (stops.mpr ends)
  · rw [Counting, grown]
    exact ⟨cnt.trans counted.symm, fun ends => stays (stops.mp ends)⟩

theorem Counting.skip {history : List Served} {vars : InitVars} {pktRec added : PktRecord}
    {request ack : BlePkt} {input : Input} {next : Option InitPlace}
    (earlier : Serves initServer history (some (.loop vars)) pktRec)
    (counting : Counting history (some (.loop vars)))
    (turn : initReact (.loop vars) pktRec request input = .answers ack added next)
    (device : request.deviceId ≠ 1) : Counting (history ++ [⟨request, input, ack⟩]) next := by
  have same : readings (history ++ [⟨request, input, ack⟩]) = readings history := by
    rw [readings_append, if_neg device]
  obtain ⟨-, holds, most⟩ := init_serves_shape earlier
  have few : pktRec.count < maxPacketCountPerIter := by
    rwa [holds.count, Nat.min_eq_right (Nat.le_of_lt most)]
  rw [init_loop_skips turn device few, Counting, same]
  exact counting

theorem init_serves_counting {history : List Served} {place : Option InitPlace}
    {pktRec : PktRecord} (serves : Serves initServer history place pktRec) :
    Counting history place := by
  induction serves with
  | start =>
      refine ⟨rfl, ?_⟩
      rintro (full | risen)
      · exact absurd full (by decide)
      · exact absurd risen (by decide)
  | @answer history place pktRec request input ack added next earlier turn induction =>
      cases place with
      | loop vars =>
          by_cases device : request.deviceId = 1
          · exact induction.add earlier turn device
          · exact induction.skip earlier turn device
      | terminating maxDeltaIndex =>
          cases turn
          exact ⟨history, _, rfl, induction⟩

section

variable {Place : Type} {setup : Setup Place}

theorem target_saves_no_seed (status : WaitStatus) : Directory.seed ∉ targetSaves status := by
  unfold targetSaves
  split <;> split_ifs <;> decide

theorem clean_up_saves_no_seed (attackerStatus : WaitStatus) (fault : RunFault) :
    Directory.seed ∉ cleanUpSaves attackerStatus fault := by
  unfold cleanUpSaves
  split_ifs <;> decide

/-- A file that holds the record with which the interceptor has ended. -/
def SeedServed (setup : Setup Place) (state : RunState Place) (file : SeedFile) : Prop :=
  state.interceptor = .ended ∧
    ∃ pktRec, Serves setup.server state.answered none pktRec ∧ file = saveSeqBufToFile2 pktRec

theorem run_seed_served {messages : List Message} {state : RunState Place}
    {actions : List Action} (run : fuzzOne setup messages actions = some state) :
    ∀ file, (.seed, file) ∈ state.saves → SeedServed setup state file := by
  have preserved : Preserves (step setup) fun state => Tracked setup state ∧
      ∀ file, (.seed, file) ∈ state.saves → SeedServed setup state file := by
    intro state action next taken ⟨tracked, served⟩
    refine ⟨step_tracked state action next taken tracked, ?_⟩
    have others {directories : List Directory} (none : Directory.seed ∉ directories)
        {file : SeedFile}
        (member : (.seed, file) ∈ state.saves ++ saveTo directories state.pktRec) :
        SeedServed setup state file := by
      rcases List.mem_append.mp member with earlier | last
      · exact served file earlier
      · obtain ⟨directory, listed, same⟩ := List.mem_map.mp last
        cases same
        exact absurd listed none
    have unsaved (alive : state.interceptor ≠ .ended) (file : SeedFile) :
        (.seed, file) ∉ state.saves := fun member => alive (served file member).1
    intro file member
    cases step_turn taken with
    | finish finishes =>
        rcases List.mem_append.mp member with earlier | last
        · exact absurd earlier (unsaved (by simp [finishes]) file)
        · obtain ⟨directory, -, same⟩ := List.mem_map.mp last
          cases same
          simp only [Tracked, finishes] at tracked
          exact ⟨rfl, state.pktRec, tracked, rfl⟩
    | waitForTarget _ _ => exact others (target_saves_no_seed _) member
    | recreate _ _ => exact ⟨rfl, (others (clean_up_saves_no_seed _ _) member).2⟩
    | keep _ _ => exact others (clean_up_saves_no_seed _ _) member
    | receive awaits _ => exact absurd member (unsaved (by simp [awaits]) file)
    | answer holds _ => exact absurd member (unsaved (by simp [holds]) file)
    | spin holds => exact absurd member (unsaved (by simp [holds]) file)
    | crash holds => exact absurd member (unsaved (by simp [holds]) file)
    | acknowledge answers => exact absurd member (unsaved (by simp [answers]) file)
    | acknowledgeLast answers => exact absurd member (unsaved (by simp [answers]) file)
    | alarm _ alive => exact absurd member (unsaved alive file)
    | _ => exact served file member
  have start : ∀ file, (.seed, file) ∈ (RunState.start setup messages).saves →
      SeedServed setup (RunState.start setup messages) file := by
    intro file member
    cases member
  exact (exec_preserves preserved run ⟨.start, start⟩).2

end

/-- In every run that saves a first seed it holds, in order, exactly the packets of device
1 up to the first one after which a hundred are recorded or more than 80 readings have
not risen; so there are between 81 and a hundred of them. -/
theorem collected_seed_stops (attackerStatus : WaitStatus) (messages : List Message)
    (actions : List Action) (state : RunState InitPlace) (file : SeedFile)
    (run : fuzzOne (Mode.initCorpus.setup attackerStatus) messages actions = some state)
    (saved : (.seed, file) ∈ state.saves) :
    ∃ front final, state.answered = front ++ [final] ∧
      (mapSeed file).packets = (recorded front).map Served.request ∧
      StopsFirst (readings front) ∧
      81 ≤ (mapSeed file).count ∧ (mapSeed file).count ≤ maxPacketCountPerIter := by
  obtain ⟨-, pktRec, serves, written⟩ := run_seed_served run file saved
  obtain ⟨front, final, whole, passed, holds, most, -⟩ := init_serves_shape serves
  obtain ⟨other, last, again, stops⟩ := init_serves_counting serves
  obtain ⟨rfl, -⟩ := List.append_inj' (again.symm.trans whole) rfl
  have requests : (recorded other).map Served.ack = (recorded other).map Served.request :=
    List.map_congr_left fun served member => passed served (List.mem_filter.mp member).1
  have packets : pktRec.packets = (recorded other).map Served.request := by
    rw [holds.packets, List.take_of_length_le most, requests]
  have bounded : pktRec.count ≤ maxPacketCountPerIter := by
    rwa [PktRecord.count, packets, List.length_map]
  obtain ⟨count, mapped⟩ := mmap_saved pktRec maxPacketCountPerIter
    (Nat.lt_of_le_of_lt bounded (by decide))
  have length : pktRec.count = (readings other).length := by
    rw [PktRecord.count, packets, List.length_map]
    exact (List.length_map _).symm
  rw [← written] at count mapped
  have limits := stops.bounds
  rw [← length, ← count] at limits
  exact ⟨other, final, whole, mapped.trans packets, stops, limits⟩

/-- A run on packets that never reach anything. -/
theorem silent_seed_stops : ∃ state file front,
    fuzzOne (Mode.initCorpus.setup (.signaled sigkill)) [] collectActions = some state ∧
      (mapSeed file).packets = (recorded front).map Served.request ∧ StopsFirst (readings front) ∧
      81 ≤ (mapSeed file).count ∧ (mapSeed file).count ≤ maxPacketCountPerIter := by
  obtain ⟨state, run, facts⟩ := (Option.any_eq_true _ _).mp collect_actions_collect
  obtain ⟨-, saved⟩ := Bool.and_eq_true_iff.mp (Bool.and_eq_true_iff.mp facts).1
  obtain ⟨save, single, seed⟩ := List.map_eq_singleton_iff.mp (beq_iff_eq.mp saved)
  have member : (.seed, save.2) ∈ state.saves := by
    rw [single, ← seed]
    exact List.mem_singleton_self _
  obtain ⟨front, -, -, packets, stops, bounds⟩ :=
    collected_seed_stops (.signaled sigkill) [] collectActions state save.2 run member
  exact ⟨state, save.2, front, run, packets, stops, bounds⟩

end Blueman.CollectedLength
