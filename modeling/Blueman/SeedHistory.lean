import Blueman.SeedCampaign

/-!
# A campaign with its runs written down

The runs of the main loop one after the other, each on a queued seed and from
what the one before has left. A campaign may be started again on the seeds that
are there; the directory is then listed in any order.
-/

namespace Blueman.SeedHistory

open LittleEndian BlePacket MutateStrategy Mutator PacketSelection MutatorFullStack2Frame
open MutatorBuild HijackHook PacketRecord RunOutcome Coverage Interceptor FuzzRun RunLockStep
open SeedCampaign

set_option autoImplicit false

/-- A run of the main loop so far: the fuzzer before it, the entry whose file it
replays, what it is given from outside, and the state reached. -/
structure SeedRun where
  fuzzer : FuzzerState
  entry : QueueEntry
  file : SeedFile
  corpus : List BlePkt
  build : Build
  attackerStatus : WaitStatus
  actions : List Action
  totalExecTimes : UInt64
  traceBits : Memory
  state : RunState (FuzzPlace corpus)
  queued : entry ∈ fuzzer.coverage.queue
  opened : fuzzer.seeds.lookup entry.fname = some file
  mapped : (mapSeed file).packets = corpus
  reached : fuzzOne ((Mode.fuzz build corpus).setup attackerStatus) fuzzer.messages actions =
    some state

/-- What `fuzz_one` knows of the run at its end. -/
def SeedRun.finished (run : SeedRun) (fault : RunFault) : FinishedRun :=
  ⟨false, fault, run.state.pktRec, run.totalExecTimes, run.traceBits⟩

def SeedRun.slots (run : SeedRun) : List Served := recorded run.state.answered

inductive History (outDir : String) (first : FuzzerState) : List SeedRun → FuzzerState → Prop
  | start : History outDir first [] first
  | fuzz {runs : List SeedRun} (run : SeedRun) {fault : RunFault}
      (earlier : History outDir first runs run.fuzzer)
      (gone : run.state.parent = .finished fault) :
      History outDir first (runs ++ [run])
        (afterRun outDir run.fuzzer run.state.queue (run.finished fault))
  | restart {runs : List SeedRun} {fuzzer : FuzzerState} (messages : List Message)
      (listing : List (String × SeedFile)) (earlier : History outDir first runs fuzzer)
      (listed : listing.Perm fuzzer.seeds) :
      History outDir first runs ⟨messages, listing, loadCorpusToQueue listing setupShm⟩

/-- Without a restart these are the campaigns of `Fuzzed`. -/
theorem Fuzzed.history {outDir : String} {fuzzer : FuzzerState} (fuzzed : Fuzzed outDir fuzzer) :
    ∃ first runs, History outDir first runs fuzzer := by
  induction fuzzed with
  | collect messages attackerStatus actions run gone => exact ⟨_, [], .start⟩
  | @fuzz fuzzer entry file build attackerStatus actions totalExecTimes traceBits state fault
      earlier queued opened run gone induction =>
      obtain ⟨first, runs, history⟩ := induction
      exact ⟨first, _, .fuzz ⟨fuzzer, entry, file, _, build, attackerStatus, actions,
        totalExecTimes, traceBits, state, queued, opened, rfl, run⟩ history gone⟩

/-- Every seed is the file of a bounded record whose packets are all good, and
every queued one has its file. -/
structure SeedsHold (good : List BlePkt → Prop) (fuzzer : FuzzerState) : Prop where
  bounded : Bounded fuzzer
  packets : ∀ seed ∈ fuzzer.seeds, good (mapSeed seed.2).packets

theorem load_bounded (messages : List Message) {listing seeds : List (String × SeedFile)}
    (listed : listing.Perm seeds)
    (within : ∀ seed ∈ seeds, SavedWithin maxPacketCountPerIter seed.2) :
    Bounded ⟨messages, listing, loadCorpusToQueue listing setupShm⟩ := by
  constructor
  · intro seed member
    exact within seed (listed.mem_iff.mp member)
  · intro entry member
    rcases load_corpus_queue _ _ entry member with empty | found
    · cases empty
    · exact found

theorem mapped_saved {pktRec : PktRecord} (bounded : pktRec.count ≤ maxPacketCountPerIter) :
    (mapSeed (saveSeqBufToFile2 pktRec)).packets = pktRec.packets :=
  (mmap_saved _ _ (Nat.lt_of_le_of_lt bounded (by decide))).2

section

variable {good : List BlePkt → Prop} {outDir : String}

theorem SeedRun.short (run : SeedRun) (bounded : Bounded run.fuzzer) :
    run.corpus.length ≤ maxPacketCountPerIter := by
  rw [← run.mapped]
  exact (bounded.seeds _ (opened_member run.opened)).mapped_short

theorem SeedRun.serves (run : SeedRun) :
    ∃ place, Serves (fuzzServer run.build run.corpus) run.state.answered place run.state.pktRec :=
  (run_tracked run.reached).serves

theorem SeedRun.recorded (run : SeedRun) (bounded : Bounded run.fuzzer) :
    Recorded run.corpus.length run.state.answered run.state.pktRec := by
  obtain ⟨place, serves⟩ := run.serves
  exact fuzz_serves_recorded serves (run.short bounded)

theorem SeedRun.count_le (run : SeedRun) (bounded : Bounded run.fuzzer) :
    run.state.pktRec.count ≤ maxPacketCountPerIter := by
  rw [(run.recorded bounded).count]
  exact Nat.le_trans (Nat.min_le_left _ _) (run.short bounded)

theorem SeedsHold.after_run {run : SeedRun} (holds : SeedsHold good run.fuzzer)
    (kept : good run.state.pktRec.packets) (fault : RunFault) :
    SeedsHold good (afterRun outDir run.fuzzer run.state.queue (run.finished fault)) := by
  have count := run.count_le holds.bounded
  refine ⟨after_run_bounded outDir run.state.queue _ holds.bounded count, ?_⟩
  intro seed member
  unfold afterRun at member
  split at member
  · rcases List.mem_cons.mp member with rfl | earlier
    · change good (mapSeed (saveSeqBufToFile2 run.state.pktRec)).packets
      rw [mapped_saved count]
      exact kept
    · exact holds.packets seed earlier
  · exact holds.packets seed member

theorem SeedsHold.restart {fuzzer : FuzzerState} (holds : SeedsHold good fuzzer)
    (messages : List Message) {listing : List (String × SeedFile)}
    (listed : listing.Perm fuzzer.seeds) :
    SeedsHold good ⟨messages, listing, loadCorpusToQueue listing setupShm⟩ :=
  ⟨load_bounded messages listed holds.bounded.seeds,
    fun seed member => holds.packets seed (listed.mem_iff.mp member)⟩

theorem history_bounded {first fuzzer : FuzzerState} {runs : List SeedRun}
    (history : History outDir first runs fuzzer) (bounded : Bounded first) : Bounded fuzzer := by
  induction history with
  | start => exact bounded
  | fuzz run earlier gone induction =>
      exact after_run_bounded outDir _ _ induction (run.count_le induction)
  | restart messages listing earlier listed induction =>
      exact load_bounded messages listed induction.seeds

theorem SeedsHold.corpus {run : SeedRun} (holds : SeedsHold good run.fuzzer) :
    good run.corpus := by
  have packets := holds.packets (run.entry.fname, run.file) (opened_member run.opened)
  rwa [run.mapped] at packets

end

structure CollectRun where
  attackerStatus : WaitStatus
  messages : List Message
  actions : List Action
  state : RunState InitPlace
  fault : RunFault
  reached : fuzzOne (Mode.initCorpus.setup attackerStatus) messages actions = some state
  gone : state.parent = .finished fault

def CollectRun.fuzzer (run : CollectRun) (outDir : String) : FuzzerState :=
  collectInitCorpus outDir run.state.queue run.state.saves

def headedReception (maxLen : UInt32) : Reception where
  radio := ⟨0x50655D7A, 0, maxLen⟩
  stack := silence
  lenOfPayload := 4
  buf position := if position = 0 then 2 else if position = 1 then 4 else 0
  rx := 1

def headedPacket (maxLen : UInt32) : BlePkt :=
  hijackRecord (headedReception maxLen).radio silence 4 (headedReception maxLen).buf 1

theorem headed_call (maxLen : UInt32) :
    (headedReception maxLen).call = .exchanges (headedPacket maxLen)
      (hijackApply maxLen (headedReception maxLen).buf) := rfl

/-- The greatest result of `rand()` selects nothing. -/
def quietInput : Input := ⟨fun _ => Fin.last _, fun _ => 0, 0⟩

theorem quiet_unselected : selects mixedConfig 1 quietInput.draws = false := by decide +kernel

theorem quiet_run (packet : BlePkt) : ∃ after,
    runMutator (mutatePkt (.fieldAware mixedConfig) 1) quietInput.beyond packet quietInput.draws =
      .ok 0 after ∧ recordOf after.store = packet :=
  unselected_unchanged mixedConfig 1 packet quietInput.beyond quietInput.draws
    (.inr quiet_unselected)

def collectActionsOf (reception : Reception) : List Action :=
  (List.replicate 82 [.hook reception, .receive, .process quietInput, .acknowledge,
    .consume]).flatten ++ [.finish, .waitForTarget, .cleanUp, .waitForInterceptor]

def headed (packet : BlePkt) : Bool :=
  packet.lengthByte == 4 && packet.len == 9 && packet.maxPayloadLen == 37

def slotAhead (file : SeedFile) : Bool :=
  (mapSeed file).packets.head?.any fun slot => slot.deviceId == 1 && slot.mutated == 0

def collectedHeaded (state : RunState InitPlace) : Bool :=
  (state.parent matches .finished .none) && state.queue.isEmpty &&
    (state.saves.map Prod.fst == [.seed] && state.saves.all fun save => slotAhead save.2) &&
      state.answered.all fun served => headed served.request

theorem collect_actions_headed :
    (fuzzOne (Mode.initCorpus.setup (.signaled sigkill)) []
      (collectActionsOf (headedReception 37))).any collectedHeaded = true := by
  decide +kernel

structure Collected (outDir : String) (first : CollectRun) (entry : QueueEntry)
    (file : SeedFile) (slot : BlePkt) : Prop where
  arrived : ∀ served ∈ first.state.answered, headed served.request = true
  messages : (first.fuzzer outDir).messages = []
  virginBits : (first.fuzzer outDir).coverage.virginBits = setupShm.virginBits
  queued : entry ∈ (first.fuzzer outDir).coverage.queue
  single : (first.fuzzer outDir).seeds = [(entry.fname, file)]
  ahead : (mapSeed file).packets.head? = some slot
  device : slot.deviceId = 1
  unmutated : slot.mutated = 0

theorem headed_collected (outDir : String) :
    ∃ first entry file slot, Collected outDir first entry file slot := by
  obtain ⟨state, run, facts⟩ := (Option.any_eq_true _ _).mp collect_actions_headed
  obtain ⟨facts, arrived⟩ := Bool.and_eq_true_iff.mp facts
  obtain ⟨facts, saved⟩ := Bool.and_eq_true_iff.mp facts
  obtain ⟨gone, empty⟩ := Bool.and_eq_true_iff.mp facts
  obtain ⟨seeds, slots⟩ := Bool.and_eq_true_iff.mp saved
  have finished : state.parent = .finished .none := by
    split at gone
    · assumption
    · cases gone
  obtain ⟨save, single, seed⟩ := List.map_eq_singleton_iff.mp (beq_iff_eq.mp seeds)
  rw [single, List.all_cons, List.all_nil, Bool.and_true] at slots
  obtain ⟨slot, ahead, plain⟩ := (Option.any_eq_true _ _).mp slots
  obtain ⟨device, unmutated⟩ := Bool.and_eq_true_iff.mp plain
  have collected : collectedSeeds outDir state.saves = [(outDir ++ "/init_corpus", save.2)] := by
    rw [collectedSeeds, single, List.filter_singleton, seed]
    rfl
  have fuzzer : collectInitCorpus outDir state.queue state.saves =
      ⟨state.queue, [(outDir ++ "/init_corpus", save.2)],
        loadCorpusToQueue [(outDir ++ "/init_corpus", save.2)] setupShm⟩ := by
    rw [collectInitCorpus, collected]
  refine ⟨⟨.signaled sigkill, [], _, state, .none, run, finished⟩,
    ⟨outDir ++ "/init_corpus", (mappedRecord save.2).count,
      getPktSeqTotalLen (mappedRecord save.2), none⟩, save.2, slot,
    List.all_eq_true.mp arrived, List.isEmpty_iff.mp empty, ?_, ?_, ?_, ahead, beq_iff_eq.mp device,
    beq_iff_eq.mp unmutated⟩
  · rw [CollectRun.fuzzer, fuzzer]
    rfl
  · rw [CollectRun.fuzzer, fuzzer]
    exact List.mem_cons_self
  · rw [CollectRun.fuzzer, fuzzer]

def alarmedActions (reception : Reception) (input : Input) : List Action :=
  [.hook reception, .receive, .process input, .alarm, .waitForTarget, .cleanUp,
    .waitForInterceptor]

structure ServedOne {Place : Type} (state : RunState Place) (served : Served) (pktRec : PktRecord) :
    Prop where
  gone : state.parent = .finished .timeout
  messages : state.queue = []
  answered : state.answered = [served]
  recorded : state.pktRec = pktRec

theorem alarmed_run {Place : Type} (setup : Setup Place) {sent ack : BlePkt}
    {reception : Reception} {resume : BlePkt → HookOutcome} {input : Input} {pktRec : PktRecord}
    {next : Option Place} (fuzzing : setup.createInitCorpus = false)
    (killed : setup.attackerStatus = .signaled sigkill)
    (call : reception.call = .exchanges sent resume)
    (react : setup.server.react setup.server.start emptyRecord sent input =
      .answers ack pktRec next) :
    ∃ state, fuzzOne setup [] (alarmedActions reception input) = some state ∧
      ServedOne state ⟨sent, input, ack⟩ pktRec := by
  refine ⟨?_, ?_, ?_⟩
  rotate_left
  · simp only [fuzzOne, alarmedActions, Execution.exec, step, FuzzRun.hook, RunState.start, call,
      Option.bind_some, receive, msgsnd, List.nil_append]
    simp [msgrcv, process, react, timeoutHandler, fuzzing, Target.kill, waitForTarget, cleanUp,
      recreatesQueue, waitForInterceptor, killed]
    rfl
  · exact ⟨rfl, rfl, rfl, rfl⟩

theorem first_slot_react {build : Build} {corpus : List BlePkt} {slot sent : BlePkt}
    {input : Input} {ret : Nat} {after : ByteMachine.Machine Rand}
    (ahead : corpus.head? = some slot) (alive : slot.deviceId ≠ 0) (device : sent.deviceId = 1)
    (run : runMutator (mutatePkt build 1) input.beyond (copyBlePkt sent slot).2 input.draws =
      .ok ret after) :
    (fuzzServer build corpus).react (fuzzServer build corpus).start emptyRecord sent input =
      .answers (recordOf after.store) (addPktToSeqBuf emptyRecord (recordOf after.store)).2
        (some (fuzzHead corpus 1)) := by
  obtain ⟨rest, rfl⟩ := List.head?_eq_some_iff.mp ahead
  have start : fuzzHead (slot :: rest) 0 = .loop ⟨0, Nat.succ_pos _⟩ := dif_pos _
  have first : (slot :: rest).get ⟨0, Nat.succ_pos _⟩ = slot := rfl
  change fuzzReact build (slot :: rest) (fuzzHead (slot :: rest) 0) emptyRecord sent input = _
  rw [start, fuzzReact, if_pos device, first, if_pos alive]
  dsimp only
  rw [run]

/-- What a run needs of the fuzzer to replay a seed with a first slot. -/
structure Replayable (fuzzer : FuzzerState) (entry : QueueEntry) (file : SeedFile)
    (slot : BlePkt) : Prop where
  messages : fuzzer.messages = []
  queued : entry ∈ fuzzer.coverage.queue
  opened : fuzzer.seeds.lookup entry.fname = some file
  ahead : (mapSeed file).packets.head? = some slot
  alive : slot.deviceId ≠ 0

theorem Collected.replayable {outDir : String} {first : CollectRun} {entry : QueueEntry}
    {file : SeedFile} {slot : BlePkt} (collected : Collected outDir first entry file slot) :
    Replayable (first.fuzzer outDir) entry file slot := by
  refine ⟨collected.messages, collected.queued, ?_, collected.ahead, ?_⟩
  · rw [collected.single]
    exact List.lookup_cons_self
  · rw [collected.device]
    decide

theorem one_slot_run {fuzzer : FuzzerState} {entry : QueueEntry} {file : SeedFile}
    {slot : BlePkt} (replayable : Replayable fuzzer entry file slot) (build : Build)
    (maxLen : UInt32) (input : Input) (traceBits : Memory) {ret : Nat}
    {after : ByteMachine.Machine Rand}
    (mutates : runMutator (mutatePkt build 1) input.beyond (copyBlePkt (headedPacket maxLen) slot).2
      input.draws = .ok ret after) :
    ∃ run : SeedRun, run.fuzzer = fuzzer ∧ run.build = build ∧ run.traceBits = traceBits ∧
      run.corpus.head? = some slot ∧
      ServedOne run.state ⟨headedPacket maxLen, input, recordOf after.store⟩
        (addPktToSeqBuf emptyRecord (recordOf after.store)).2 := by
  obtain ⟨messages, queued, opened, ahead, alive⟩ := replayable
  generalize mapped : (mapSeed file).packets = corpus at ahead
  have react := first_slot_react ahead alive (rfl : (headedPacket maxLen).deviceId = 1) mutates
  obtain ⟨state, reached, served⟩ := alarmed_run ((Mode.fuzz build corpus).setup (.signaled sigkill))
    rfl rfl (headed_call maxLen) react
  rw [← messages] at reached
  exact ⟨⟨fuzzer, entry, file, corpus, build, _, _, 1, traceBits, state, queued, opened, mapped,
    reached⟩, rfl, rfl, rfl, ahead, served⟩

theorem edge_kept (outDir : String) {state : CoverageState} {run : FinishedRun}
    (untouched : state.virginBits = setupShm.virginBits) (counted : run.counted = true)
    (edge : run.traceBits = oneEdge.traceBits) : ∃ path, (keepRun outDir state run).2 = some path := by
  have scanned := has_new_bits_scanned run.traceBits state.virginBits
  apply Option.isSome_iff_exists.mp
  rw [keepRun, if_pos counted, save_if_interesting_keeps, scanned.newBits, edge, untouched]
  exact ⟨7, by decide, by decide⟩

theorem kept_replayable {outDir : String} {run : SeedRun} {fault : RunFault} {path : String}
    {slot : BlePkt} (kept : (keepRun outDir run.fuzzer.coverage (run.finished fault)).2 = some path)
    (bounded : run.state.pktRec.count ≤ maxPacketCountPerIter)
    (messages : run.state.queue = []) (ahead : run.state.pktRec.packets.head? = some slot)
    (alive : slot.deviceId ≠ 0) :
    ∃ entry, Replayable (afterRun outDir run.fuzzer run.state.queue (run.finished fault)) entry
      (saveSeqBufToFile2 run.state.pktRec) slot := by
  rcases keep_run_queue outDir run.fuzzer.coverage (run.finished fault) with
    ⟨none, -⟩ | ⟨other, entry, some, named, -, queue⟩
  · rw [kept] at none
    cases none
  · rw [kept] at some
    cases some
    refine ⟨entry, messages, ?_, ?_, ?_, alive⟩
    · change entry ∈ (keepRun outDir run.fuzzer.coverage (run.finished fault)).1.queue
      rw [queue]
      exact List.mem_cons_self
    · unfold afterRun
      rw [kept, named]
      exact List.lookup_cons_self
    · rw [mapped_saved bounded]
      exact ahead

end Blueman.SeedHistory
