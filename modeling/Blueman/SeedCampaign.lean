import Blueman.Coverage
import Blueman.RunLockStep

/-!
# Seeds from run to run

A campaign from an empty seed directory: one run collects the first seed, and
every later one fuzzes with a queued seed and may leave a new one. Each seed is
read back through a mapping of a hundred packets, whatever its size, so what
keeps the packets inside the mapping is the bound on the records of all runs.
-/

namespace Blueman.SeedCampaign

open LittleEndian BlePacket MutatorBuild PacketRecord RunOutcome Coverage Interceptor FuzzRun
open Execution RunLockStep

set_option autoImplicit false

/-- The fuzzer between two runs. A file written again under its old name stands
before the older one. -/
structure FuzzerState where
  messages : List Message
  seeds : List (String × SeedFile)
  coverage : CoverageState

def collectedSeeds (outDir : String) (saves : List (Directory × SeedFile)) :
    List (String × SeedFile) :=
  (saves.filter fun save => save.1 == .seed).map fun save => (outDir ++ "/init_corpus", save.2)

def mapSeed (file : SeedFile) : Mapping := mmapSeqBufFile file maxPacketCountPerIter

/-- A mapped seed as `add_to_queue` reads it. -/
def mappedRecord (file : SeedFile) : PktRecord :=
  ⟨(mapSeed file).packets.length, (mapSeed file).packets, Nat.le_refl _⟩

def loadCorpusToQueue (seeds : List (String × SeedFile)) (state : CoverageState) : CoverageState :=
  seeds.foldl (fun state seed => addToQueue state seed.1 (mappedRecord seed.2)) state

def collectInitCorpus (outDir : String) (messages : List Message)
    (saves : List (Directory × SeedFile)) : FuzzerState where
  messages := messages
  seeds := collectedSeeds outDir saves
  coverage := loadCorpusToQueue (collectedSeeds outDir saves) setupShm

/-- The end of `fuzz_one`: a run that counts may be kept as a seed. -/
def afterRun (outDir : String) (fuzzer : FuzzerState) (messages : List Message)
    (run : FinishedRun) : FuzzerState where
  messages := messages
  seeds :=
    match (keepRun outDir fuzzer.coverage run).2 with
    | some path => (path, saveSeqBufToFile2 run.pktRec) :: fuzzer.seeds
    | none => fuzzer.seeds
  coverage := (keepRun outDir fuzzer.coverage run).1

/-- The mutator and its configuration may differ from run to run. -/
inductive Fuzzed (outDir : String) : FuzzerState → Prop
  | collect (messages : List Message) (attackerStatus : WaitStatus) (actions : List Action)
      {state : RunState InitPlace} {fault : RunFault}
      (run : fuzzOne (Mode.initCorpus.setup attackerStatus) messages actions = some state)
      (gone : state.parent = .finished fault) :
      Fuzzed outDir (collectInitCorpus outDir state.queue state.saves)
  | fuzz {fuzzer : FuzzerState} (entry : QueueEntry) {file : SeedFile} (build : Build)
      (attackerStatus : WaitStatus) (actions : List Action) (totalExecTimes : UInt64)
      (traceBits : Memory) {state : RunState (FuzzPlace (mapSeed file).packets)} {fault : RunFault}
      (earlier : Fuzzed outDir fuzzer) (queued : entry ∈ fuzzer.coverage.queue)
      (opened : fuzzer.seeds.lookup entry.fname = some file)
      (run : fuzzOne ((Mode.fuzz build (mapSeed file).packets).setup attackerStatus)
        fuzzer.messages actions = some state)
      (gone : state.parent = .finished fault) :
      Fuzzed outDir
        (afterRun outDir fuzzer state.queue ⟨false, fault, state.pktRec, totalExecTimes, traceBits⟩)

section

variable {Place : Type} {setup : Setup Place}

/-- Whatever the interceptor has served, its record is bounded and has room. -/
def KeepsBound (server : Server Place) (limit : Nat) : Prop :=
  ∀ history place pktRec, Serves server history place pktRec →
    pktRec.count ≤ limit ∧ ∀ pkt, (addPktToSeqBuf pktRec pkt).1 = 0

theorem init_keeps_bound : KeepsBound initServer maxPacketCountPerIter := by
  intro history place pktRec serves
  obtain ⟨front, holds⟩ := init_serves_recorded serves
  constructor
  · rw [holds.count]
    exact Nat.min_le_left _ _
  · exact holds.never_refuses (Nat.le_refl _)

theorem fuzz_keeps_bound (build : Build) {corpus : List BlePkt}
    (short : corpus.length ≤ maxPacketCountPerIter) :
    KeepsBound (fuzzServer build corpus) corpus.length := by
  intro history place pktRec serves
  have holds := fuzz_serves_recorded serves short
  constructor
  · rw [holds.count]
    exact Nat.min_le_left _ _
  · exact holds.never_refuses short

/-- A file that holds a record of at most `limit` packets. -/
def SavedWithin (limit : Nat) (file : SeedFile) : Prop :=
  ∃ pktRec : PktRecord, pktRec.count ≤ limit ∧ file = saveSeqBufToFile2 pktRec

theorem SavedWithin.mono {small large : Nat} {file : SeedFile} (saved : SavedWithin small file)
    (below : small ≤ large) : SavedWithin large file := by
  obtain ⟨pktRec, bounded, written⟩ := saved
  exact ⟨pktRec, Nat.le_trans bounded below, written⟩

def SavesWithin (limit : Nat) (state : RunState Place) : Prop :=
  ∀ save ∈ state.saves, SavedWithin limit save.2

def SavedServed (server : Server Place) (answered : List Served) (file : SeedFile) : Prop :=
  ∃ history place pktRec, Serves server history place pktRec ∧ history <+: answered ∧
    file = saveSeqBufToFile2 pktRec

theorem run_saves_served {messages : List Message} {state : RunState Place}
    {actions : List Action} (run : fuzzOne setup messages actions = some state) :
    ∀ save ∈ state.saves, SavedServed setup.server state.answered save.2 := by
  have preserved : Preserves (step setup) fun state =>
      Tracked setup state ∧ ∀ save ∈ state.saves,
        SavedServed setup.server state.answered save.2 := by
    rintro state action next taken ⟨tracked, saved⟩
    refine ⟨step_tracked state action next taken tracked, ?_⟩
    obtain ⟨place, serves⟩ := tracked.serves
    have appended (directories : List Directory) :
        ∀ save ∈ state.saves ++ saveTo directories state.pktRec,
          SavedServed setup.server state.answered save.2 := by
      intro save member
      rcases List.mem_append.mp member with earlier | last
      · exact saved save earlier
      · obtain ⟨directory, -, rfl⟩ := List.mem_map.mp last
        exact ⟨_, _, _, serves, List.prefix_rfl, rfl⟩
    cases step_turn taken with
    | finish _ => exact appended _
    | waitForTarget _ _ => exact appended _
    | recreate _ _ => exact appended _
    | keep _ _ => exact appended _
    | answer _ _ =>
        intro save member
        obtain ⟨history, before, pktRec, holds, front, same⟩ := saved save member
        exact ⟨history, before, pktRec, holds, front.trans (List.prefix_append _ _), same⟩
    | _ => exact saved
  have start : ∀ save ∈ (RunState.start setup messages).saves,
      SavedServed setup.server (RunState.start setup messages).answered save.2 := by
    intro save member
    cases member
  exact (exec_preserves preserved run ⟨.start, start⟩).2

theorem run_saves_within {limit : Nat} (bound : KeepsBound setup.server limit)
    {messages : List Message} {state : RunState Place} {actions : List Action}
    (run : fuzzOne setup messages actions = some state) : SavesWithin limit state := by
  intro save member
  obtain ⟨history, place, pktRec, serves, -, same⟩ := run_saves_served run save member
  exact ⟨pktRec, (bound _ _ _ serves).1, same⟩

end

/-- A file is read back as a record: the same count, the same packets, each of them
inside the file and inside the mapping. -/
structure ReadsBack (pktRec : PktRecord) (file : SeedFile) : Prop where
  bounded : pktRec.count ≤ maxPacketCountPerIter
  count : (mapSeed file).count = pktRec.count
  packets : (mapSeed file).packets = pktRec.packets
  inside : ∀ index, index < pktRec.count → packetOffset index + blePktSize ≤ file.size ∧
    packetOffset index + blePktSize ≤ (mapSeed file).length

theorem saved_reads_back {pktRec : PktRecord} (bounded : pktRec.count ≤ maxPacketCountPerIter) :
    ReadsBack pktRec (saveSeqBufToFile2 pktRec) := by
  obtain ⟨count, packets⟩ := mmap_saved pktRec maxPacketCountPerIter
    (Nat.lt_of_le_of_lt bounded (by decide))
  refine ⟨bounded, count, packets, ?_⟩
  intro index below
  exact saved_packet_inside pktRec maxPacketCountPerIter index bounded below

theorem mapped_length {file : SeedFile} : (mapSeed file).packets.length = (mapSeed file).count := by
  rw [Mapping.packets, List.length_map, List.length_range]

theorem SavedWithin.mapped_short {file : SeedFile} (saved : SavedWithin maxPacketCountPerIter file) :
    (mapSeed file).packets.length ≤ maxPacketCountPerIter := by
  obtain ⟨pktRec, bounded, rfl⟩ := saved
  rw [mapped_length, (saved_reads_back bounded).count]
  exact bounded

/-- The seeds are bounded, and every queued one has its file. -/
structure Bounded (fuzzer : FuzzerState) : Prop where
  seeds : ∀ seed ∈ fuzzer.seeds, SavedWithin maxPacketCountPerIter seed.2
  queued : ∀ entry ∈ fuzzer.coverage.queue, ∃ seed ∈ fuzzer.seeds, entry.fname = seed.1

theorem load_corpus_queue (seeds : List (String × SeedFile)) (state : CoverageState) :
    ∀ entry ∈ (loadCorpusToQueue seeds state).queue,
      entry ∈ state.queue ∨ ∃ seed ∈ seeds, entry.fname = seed.1 := by
  induction seeds generalizing state with
  | nil => exact fun entry member => .inl member
  | cons seed rest induction =>
      intro entry member
      rcases induction _ entry member with added | ⟨other, later, same⟩
      · rcases List.mem_cons.mp added with rfl | earlier
        · exact .inr ⟨seed, List.mem_cons_self, rfl⟩
        · exact .inl earlier
      · exact .inr ⟨other, List.mem_cons_of_mem _ later, same⟩

theorem collect_bounded (outDir : String) (messages : List Message)
    {saves : List (Directory × SeedFile)}
    (within : ∀ save ∈ saves, SavedWithin maxPacketCountPerIter save.2) :
    Bounded (collectInitCorpus outDir messages saves) := by
  constructor
  · intro seed member
    obtain ⟨save, kept, rfl⟩ := List.mem_map.mp member
    exact within save (List.mem_of_mem_filter kept)
  · intro entry member
    rcases load_corpus_queue _ _ entry member with empty | found
    · cases empty
    · exact found

theorem keep_run_queue (outDir : String) (state : CoverageState) (run : FinishedRun) :
    (keepRun outDir state run).2 = none ∧ (keepRun outDir state run).1.queue = state.queue ∨
      ∃ path entry, (keepRun outDir state run).2 = some path ∧ entry.fname = path ∧
        entry.count = run.pktRec.count ∧
        (keepRun outDir state run).1.queue = entry :: state.queue := by
  unfold keepRun saveIfInteresting
  generalize hasNewBits run.traceBits state.virginBits = scanned
  dsimp only
  generalize seedName outDir (corpusGetCoverage run.traceBits) run.totalExecTimes.toUInt32
    state.queuedPaths = path
  split_ifs with counted nothing brandNew
  · exact .inl ⟨rfl, rfl⟩
  · refine .inr ⟨path, _, rfl, ?_, ?_, rfl⟩
    all_goals rfl
  · refine .inr ⟨path, _, rfl, ?_, ?_, rfl⟩
    all_goals rfl
  · exact .inl ⟨rfl, rfl⟩

theorem after_run_bounded (outDir : String) {fuzzer : FuzzerState} (messages : List Message)
    (run : FinishedRun) (bounded : Bounded fuzzer)
    (within : run.pktRec.count ≤ maxPacketCountPerIter) :
    Bounded (afterRun outDir fuzzer messages run) := by
  have kept := keep_run_queue outDir fuzzer.coverage run
  unfold afterRun
  generalize keepRun outDir fuzzer.coverage run = result at kept ⊢
  obtain ⟨coverage, name⟩ := result
  rcases kept with ⟨rfl, queue⟩ | ⟨path, entry, rfl, named, -, queue⟩
  · refine ⟨bounded.seeds, ?_⟩
    rw [queue]
    exact bounded.queued
  · constructor
    · intro seed member
      rcases List.mem_cons.mp member with rfl | earlier
      · exact ⟨run.pktRec, within, rfl⟩
      · exact bounded.seeds seed earlier
    · rw [queue]
      intro other member
      rcases List.mem_cons.mp member with rfl | earlier
      · exact ⟨_, List.mem_cons_self, named⟩
      · obtain ⟨seed, found, same⟩ := bounded.queued other earlier
        exact ⟨seed, List.mem_cons_of_mem _ found, same⟩

theorem opened_member {seeds : List (String × SeedFile)} {name : String} {file : SeedFile}
    (opened : seeds.lookup name = some file) : (name, file) ∈ seeds := by
  obtain ⟨newer, older, rfl, -⟩ := List.lookup_eq_some_iff.mp opened
  exact List.mem_append_right _ List.mem_cons_self

/-- What a run has to record: the answers it has given in its loop to packets of
device 1. The fuzzing loop ends with the seed, the collecting one before the answer that
ends the run. -/
def toRecord : (mode : Mode) → Option mode.Place → List Served → List BlePkt
  | .initCorpus, place, history =>
      (recorded (if place.isNone then history.dropLast else history)).map Served.ack
  | .fuzz _ corpus, _, history => ((recorded history).take corpus.length).map Served.ack

/-- What holds of the record at a point of a run: it is bounded, every packet that was to
be recorded is in it, the next one will be, and whatever the next step saves is read back
as this record. -/
structure RecordSafe (mode : Mode) (attackerStatus : WaitStatus) (limit : Nat)
    (state : RunState mode.Place) : Prop where
  bounded : state.pktRec.count ≤ limit
  complete : ∃ place, Serves (mode.setup attackerStatus).server state.answered place
    state.pktRec ∧ state.pktRec.packets = toRecord mode place state.answered
  takes : ∀ pkt, (addPktToSeqBuf state.pktRec pkt).1 = 0 ∧
    (addPktToSeqBuf state.pktRec pkt).2.packets = state.pktRec.packets ++ [pkt]
  saves : ∀ action next, step (mode.setup attackerStatus) state action = some next →
    ∃ added, next.saves = state.saves ++ added ∧
      ∀ save ∈ added, ReadsBack state.pktRec save.2

theorem RecordSafe.mono {mode : Mode} {attackerStatus : WaitStatus} {small large : Nat}
    {state : RunState mode.Place} (safe : RecordSafe mode attackerStatus small state)
    (below : small ≤ large) : RecordSafe mode attackerStatus large state :=
  ⟨Nat.le_trans safe.bounded below, safe.complete, safe.takes, safe.saves⟩

def collectActions : List Action :=
  (List.replicate 82 exchangeActions).flatten ++
    [.finish, .waitForTarget, .cleanUp, .waitForInterceptor]

def collectedOne (state : RunState InitPlace) : Bool :=
  state.parent matches .finished .none && state.saves.map Prod.fst == [.seed] &&
    state.saves.all fun save => (mapSeed save.2).count == 81

theorem collect_actions_collect :
    (fuzzOne (Mode.initCorpus.setup (.signaled sigkill)) [] collectActions).any collectedOne =
      true := by
  decide +kernel

end Blueman.SeedCampaign
