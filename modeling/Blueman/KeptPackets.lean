import Blueman.SeedHistory

/-!
# Seeds without packets

Whether a run is kept is decided by its fault and its coverage. How many packets
it has recorded is not asked, and only a crash keeps a run from being saved, not
an alarm or an error. So a run that ends before its first packet is answered, but
reaches something new on the way there, is saved as a seed that replays nothing.
-/

namespace Blueman.KeptPackets

open LittleEndian ByteScan BlePacket Mutator MutatorBuild MutatorFullStack2Frame PacketSelection
open PacketRecord RunOutcome Coverage Interceptor FuzzRun RunLockStep SeedCampaign SeedHistory

set_option autoImplicit false

def FilesHold (fuzzer : FuzzerState) : Prop :=
  ∀ seed ∈ fuzzer.seeds, (mapSeed seed.2).packets ≠ []

/-- The seeds have packets, and so say the entries of the queue. -/
structure Mutable (fuzzer : FuzzerState) : Prop where
  files : FilesHold fuzzer
  entries : ∀ entry ∈ fuzzer.coverage.queue, 0 < entry.count

/-- The run is over, has not crashed, and its trace has a bit that is still set
in the virgin map before it. -/
structure Interesting (run : SeedRun) : Prop where
  ended : ∃ fault, run.state.parent = .finished fault ∧ fault ≠ .crash
  newBit : ∃ position, position < mapSize ∧
    run.traceBits position &&& run.fuzzer.coverage.virginBits position ≠ 0

def AnswersFirst (run : SeedRun) : Prop := Interesting run → run.slots ≠ []

theorem kept_iff (outDir : String) {run : SeedRun} {fault : RunFault}
    (gone : run.state.parent = .finished fault) :
    (∃ path, (keepRun outDir run.fuzzer.coverage (run.finished fault)).2 = some path) ↔
      Interesting run := by
  have scanned := has_new_bits_scanned run.traceBits run.fuzzer.coverage.virginBits
  have counted : (run.finished fault).counted = true ↔ fault ≠ .crash := by
    cases fault <;> simp [FinishedRun.counted, SeedRun.finished]
  rw [← Option.isSome_iff_exists]
  constructor
  · intro kept
    unfold keepRun at kept
    split_ifs at kept with passes
    · rw [save_if_interesting_keeps] at kept
      obtain ⟨position, inside, overlap⟩ := scanned.newBits.mp kept
      exact ⟨⟨fault, gone, counted.mp passes⟩, position, map_words.1 ▸ inside, overlap⟩
    · cases kept
  · rintro ⟨⟨other, ended, notCrash⟩, position, inside, overlap⟩
    rw [gone] at ended
    cases ended
    rw [keepRun, if_pos (counted.mpr notCrash), save_if_interesting_keeps]
    exact scanned.newBits.mpr ⟨position, map_words.1 ▸ inside, overlap⟩

theorem record_empty_iff {run : SeedRun} (bounded : Bounded run.fuzzer)
    (packets : run.corpus ≠ []) : run.state.pktRec.packets ≠ [] ↔ run.slots ≠ [] := by
  have long : 0 < run.corpus.length := List.length_pos_iff.mpr packets
  rw [(run.recorded bounded).packets, Ne, List.map_eq_nil_iff, List.take_eq_nil_iff]
  constructor
  · intro some none
    exact some (.inr none)
  · rintro some (zero | none)
    · omega
    · exact some none

def Counted (fuzzer : FuzzerState) : Prop :=
  ∀ entry ∈ fuzzer.coverage.queue, ∃ seed ∈ fuzzer.seeds,
    entry.count = (mapSeed seed.2).packets.length

theorem mapped_record_count (file : SeedFile) :
    (mappedRecord file).count = (mapSeed file).packets.length := by
  rw [PktRecord.count, mappedRecord]

theorem add_to_queue_count (state : CoverageState) (fname : String) (pktRec : PktRecord) :
    ∀ entry ∈ (addToQueue state fname pktRec).queue,
      entry ∈ state.queue ∨ entry.count = pktRec.count := by
  intro entry member
  rcases List.mem_cons.mp member with rfl | earlier
  · exact .inr rfl
  · exact .inl earlier

theorem load_corpus_counts (seeds : List (String × SeedFile)) (state : CoverageState) :
    ∀ entry ∈ (loadCorpusToQueue seeds state).queue, entry ∈ state.queue ∨
      ∃ seed ∈ seeds, entry.count = (mapSeed seed.2).packets.length := by
  induction seeds generalizing state with
  | nil => exact fun entry member => .inl member
  | cons seed rest induction =>
      intro entry member
      rcases induction _ entry member with added | ⟨other, later, same⟩
      · rcases add_to_queue_count _ _ _ entry added with earlier | count
        · exact .inl earlier
        · rw [mapped_record_count] at count
          exact .inr ⟨seed, List.mem_cons_self, count⟩
      · exact .inr ⟨other, List.mem_cons_of_mem _ later, same⟩

theorem load_counted (messages : List Message) (listing : List (String × SeedFile)) :
    Counted ⟨messages, listing, loadCorpusToQueue listing setupShm⟩ := by
  intro entry member
  rcases load_corpus_counts listing setupShm entry member with empty | found
  · cases empty
  · exact found

theorem mutable_iff {fuzzer : FuzzerState} (counted : Counted fuzzer) :
    Mutable fuzzer ↔ FilesHold fuzzer := by
  constructor
  · exact Mutable.files
  · intro files
    refine ⟨files, ?_⟩
    intro entry member
    obtain ⟨seed, found, count⟩ := counted entry member
    rw [count]
    exact List.length_pos_iff.mpr (files seed found)

section

variable {outDir : String} {first fuzzer : FuzzerState} {runs : List SeedRun}

theorem after_run_counted {run : SeedRun} {fault : RunFault} (counted : Counted run.fuzzer)
    (bounded : Bounded run.fuzzer) :
    Counted (afterRun outDir run.fuzzer run.state.queue (run.finished fault)) := by
  intro entry member
  change entry ∈ (keepRun outDir run.fuzzer.coverage (run.finished fault)).1.queue at member
  unfold afterRun
  rcases keep_run_queue outDir run.fuzzer.coverage (run.finished fault) with
    ⟨none, queue⟩ | ⟨path, added, saved, -, count, queue⟩
  · rw [none]
    rw [queue] at member
    exact counted entry member
  · rw [saved]
    rw [queue] at member
    rcases List.mem_cons.mp member with rfl | earlier
    · refine ⟨_, List.mem_cons_self, ?_⟩
      rw [count]
      exact (congrArg List.length (mapped_saved (run.count_le bounded))).symm
    · obtain ⟨seed, found, same⟩ := counted entry earlier
      exact ⟨seed, List.mem_cons_of_mem _ found, same⟩

theorem history_counted (history : History outDir first runs fuzzer) (bounded : Bounded first)
    (counted : Counted first) : Counted fuzzer := by
  induction history with
  | start => exact counted
  | fuzz run earlier gone induction =>
      exact after_run_counted induction (history_bounded earlier bounded)
  | restart messages listing earlier listed induction => exact load_counted messages listing

theorem after_run_files_iff {run : SeedRun} {fault : RunFault} (bounded : Bounded run.fuzzer)
    (gone : run.state.parent = .finished fault) :
    FilesHold (afterRun outDir run.fuzzer run.state.queue (run.finished fault)) ↔
      FilesHold run.fuzzer ∧ (Interesting run → run.state.pktRec.packets ≠ []) := by
  have files := mapped_saved (run.count_le bounded)
  have interesting := kept_iff outDir gone
  unfold FilesHold afterRun
  cases kept : (keepRun outDir run.fuzzer.coverage (run.finished fault)).2 with
  | none =>
      have dull : ¬Interesting run := by
        intro new
        obtain ⟨path, some⟩ := interesting.mpr new
        rw [kept] at some
        cases some
      exact ⟨fun holds => ⟨holds, fun new => absurd new dull⟩, fun holds => holds.1⟩
  | some path =>
      have new := interesting.mp ⟨path, kept⟩
      change (∀ seed ∈ (path, saveSeqBufToFile2 run.state.pktRec) :: run.fuzzer.seeds,
        (mapSeed seed.2).packets ≠ []) ↔ _
      rw [List.forall_mem_cons, files]
      exact ⟨fun holds => ⟨holds.2, fun _ => holds.1⟩, fun holds => ⟨holds.2 new, holds.1⟩⟩

theorem history_files_iff (history : History outDir first runs fuzzer) (bounded : Bounded first)
    (start : FilesHold first) : FilesHold fuzzer ↔ ∀ run ∈ runs, AnswersFirst run := by
  induction history with
  | start =>
      refine ⟨fun _ run member => ?_, fun _ => start⟩
      cases member
  | @fuzz runs run fault earlier gone induction =>
      have bounds := history_bounded earlier bounded
      rw [after_run_files_iff bounds gone, List.forall_mem_append, List.forall_mem_singleton,
        ← induction]
      apply and_congr_right
      intro files
      have holds : SeedsHold (· ≠ []) run.fuzzer := ⟨bounds, files⟩
      exact imp_congr_right fun _ => record_empty_iff bounds holds.corpus
  | restart messages listing earlier listed induction =>
      rw [← induction]
      constructor
      · exact fun files seed member => files seed (listed.mem_iff.mpr member)
      · exact fun files seed member => files seed (listed.mem_iff.mp member)

end

/-- From seeds with packets on: every seed that a campaign keeps has a packet
exactly if every run that is kept has answered one. -/
theorem kept_seeds_mutable_iff (outDir : String) (messages : List Message)
    (listing : List (String × SeedFile)) (runs : List SeedRun) (fuzzer : FuzzerState)
    (history : History outDir ⟨messages, listing, loadCorpusToQueue listing setupShm⟩ runs fuzzer)
    (saved : ∀ seed ∈ listing, SavedWithin maxPacketCountPerIter seed.2)
    (packets : ∀ seed ∈ listing, (mapSeed seed.2).packets ≠ []) :
    Mutable fuzzer ↔ ∀ run ∈ runs, AnswersFirst run := by
  have bounded := load_bounded messages (List.Perm.refl listing) saved
  rw [mutable_iff (history_counted history bounded (load_counted messages listing))]
  exact history_files_iff history bounded packets

def silentActions : List Action := [.alarm, .waitForTarget, .cleanUp, .waitForInterceptor]

theorem silent_run {Place : Type} (setup : Setup Place) (fuzzing : setup.createInitCorpus = false)
    (killed : setup.attackerStatus = .signaled sigkill) :
    ∃ state, fuzzOne setup [] silentActions = some state ∧ state.parent = .finished .timeout ∧
      state.answered = [] ∧ state.pktRec = emptyRecord := by
  refine ⟨?_, ?_, ?_⟩
  rotate_left
  · simp [fuzzOne, silentActions, Execution.exec, step, timeoutHandler, RunState.start, fuzzing,
      Target.kill, waitForTarget, cleanUp, recreatesQueue, waitForInterceptor, killed]
    rfl
  · exact ⟨rfl, rfl, rfl⟩

theorem new_edge {run : SeedRun}
    (untouched : run.fuzzer.coverage.virginBits = setupShm.virginBits)
    (edge : run.traceBits = oneEdge.traceBits) :
    ∃ position, position < mapSize ∧
      run.traceBits position &&& run.fuzzer.coverage.virginBits position ≠ 0 := by
  refine ⟨7, by decide, ?_⟩
  rw [edge, untouched]
  decide

theorem collected_files {outDir : String} {first : CollectRun} {entry : QueueEntry}
    {file : SeedFile} {slot : BlePkt} (collected : Collected outDir first entry file slot) :
    FilesHold (first.fuzzer outDir) := by
  rw [FilesHold, collected.single, List.forall_mem_singleton]
  intro none
  have ahead := collected.ahead
  rw [none] at ahead
  cases ahead

theorem collected_bounded (first : CollectRun) (outDir : String) :
    Bounded (first.fuzzer outDir) :=
  collect_bounded outDir _ (run_saves_within init_keeps_bound first.reached)

/-- A run with a new edge that answers a packet. -/
theorem answered_seed_mutable : ∃ (first : CollectRun) (run : SeedRun) (fuzzer : FuzzerState),
    History "seed" (first.fuzzer "seed") [run] fuzzer ∧ Interesting run ∧ Mutable fuzzer := by
  obtain ⟨first, entry, file, slot, collected⟩ := headed_collected "seed"
  obtain ⟨after, mutates, -⟩ := quiet_run (copyBlePkt (headedPacket 27) slot).2
  obtain ⟨run, same, -, edge, -, served⟩ := one_slot_run collected.replayable
    (.fieldAware mixedConfig) 27 quietInput oneEdge.traceBits mutates
  have empty : History "seed" (first.fuzzer "seed") [] run.fuzzer := by
    rw [same]
    exact .start
  have history := empty.fuzz run served.gone
  have interesting : Interesting run := by
    refine ⟨⟨_, served.gone, by decide⟩, new_edge ?_ edge⟩
    rw [same]
    exact collected.virginBits
  refine ⟨first, run, _, history, interesting, ?_⟩
  apply (kept_seeds_mutable_iff "seed" first.state.queue (first.fuzzer "seed").seeds [run] _
    history (collected_bounded first "seed").seeds (collected_files collected)).mpr
  rw [List.forall_mem_singleton]
  intro _ none
  rw [SeedRun.slots, served.answered] at none
  cases none

/-- The alarm comes before the first packet, and the run is kept for its new edge. -/
theorem silent_seed_kept : ∃ (first : CollectRun) (runs : List SeedRun) (fuzzer : FuzzerState),
    FilesHold (first.fuzzer "seed") ∧ History "seed" (first.fuzzer "seed") runs fuzzer ∧
      ¬Mutable fuzzer := by
  obtain ⟨first, entry, file, slot, collected⟩ := headed_collected "seed"
  obtain ⟨messages, queued, opened, -, -⟩ := collected.replayable
  generalize mapped : (mapSeed file).packets = corpus
  obtain ⟨state, reached, gone, answered, -⟩ := silent_run
    ((Mode.fuzz (.fieldAware mixedConfig) corpus).setup (.signaled sigkill)) rfl rfl
  rw [← messages] at reached
  let run : SeedRun := ⟨first.fuzzer "seed", entry, file, corpus, _, _, _, 1, oneEdge.traceBits,
    state, queued, opened, mapped, reached⟩
  have interesting : Interesting run :=
    ⟨⟨_, gone, by decide⟩, new_edge collected.virginBits rfl⟩
  have bounded := collected_bounded first "seed"
  have empty : History "seed" (first.fuzzer "seed") [] run.fuzzer := .start
  have history := empty.fuzz run gone
  refine ⟨first, _, _, collected_files collected, history, ?_⟩
  intro holds
  have answers := (history_files_iff history bounded (collected_files collected)).mp holds.files
  apply answers run List.mem_cons_self interesting
  rw [SeedRun.slots, answered]
  rfl

end Blueman.KeptPackets
