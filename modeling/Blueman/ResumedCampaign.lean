import Blueman.KeptPackets
import Blueman.SeedNames

/-!
# What a campaign leaves for the next one

The seed directory holds the first seed and one file for every run that was kept, in
all the campaigns so far, and the queue has one entry for each of the files. Nothing
else is needed to go on: the queue that the next campaign loads is the one it finds.
-/

namespace Blueman.ResumedCampaign

open BlePacket PacketRecord RunOutcome Coverage Interceptor FuzzRun SeedCampaign SeedHistory
open KeptPackets SeedNames MutatorBuild MutatorFullStack2Frame

set_option autoImplicit false

/-- The entry that `load_corpus_to_queue` makes of a file. -/
def entryOf (seed : String × SeedFile) : QueueEntry :=
  ⟨seed.1, (mappedRecord seed.2).count, getPktSeqTotalLen (mappedRecord seed.2), none⟩

/-- An entry without `has_new_cov`, which is written to no file and never read. -/
def unmarked (entry : QueueEntry) : QueueEntry := { entry with hasNewCov := none }

def keptSeed (run : SeedRun) : Option (String × SeedFile) :=
  match run.state.parent with
  | .finished fault =>
      (keepRun outputSeedPath run.fuzzer.coverage (run.finished fault)).2.map fun path =>
        (path, saveSeqBufToFile2 run.state.pktRec)
  | _ => none

theorem kept_seed_eq {run : SeedRun} {fault : RunFault}
    (gone : run.state.parent = .finished fault) :
    keptSeed run =
      (keepRun outputSeedPath run.fuzzer.coverage (run.finished fault)).2.map fun path =>
        (path, saveSeqBufToFile2 run.state.pktRec) := by
  unfold keptSeed
  rw [gone]

theorem kept_seed_file {run : SeedRun} {seed : String × SeedFile}
    (kept : keptSeed run = some seed) :
    seed.2 = saveSeqBufToFile2 run.state.pktRec := by
  unfold keptSeed at kept
  split at kept
  · obtain ⟨path, -, same⟩ := Option.map_eq_some_iff.mp kept
    rw [← same]
  · cases kept

theorem load_corpus_entries (seeds : List (String × SeedFile)) (state : CoverageState) :
    (loadCorpusToQueue seeds state).queue = (seeds.map entryOf).reverse ++ state.queue := by
  induction seeds generalizing state with
  | nil => rfl
  | cons seed rest induction =>
      have loaded : (loadCorpusToQueue (seed :: rest) state).queue =
          (rest.map entryOf).reverse ++ entryOf seed :: state.queue := induction _
      rw [loaded, List.map_cons, List.reverse_cons, List.append_assoc]
      rfl

theorem unmarked_entry_of (seed : String × SeedFile) : unmarked (entryOf seed) = entryOf seed := by
  simp only [unmarked, entryOf]

def InStep (fuzzer : FuzzerState) : Prop :=
  (fuzzer.coverage.queue.map unmarked).Perm (fuzzer.seeds.map entryOf)

theorem loaded_in_step (listing : List (String × SeedFile)) :
    ((loadCorpusToQueue listing setupShm).queue.map unmarked).Perm (listing.map entryOf) := by
  have unchanged : unmarked ∘ entryOf = entryOf := funext unmarked_entry_of
  rw [load_corpus_entries, List.map_append, List.map_reverse, List.map_map, unchanged]
  change ((listing.map entryOf).reverse ++ []).Perm _
  rw [List.append_nil]
  exact List.reverse_perm _

theorem mark_new_cov_unmarked (queue : List QueueEntry) :
    (markNewCov queue).map unmarked = queue.map unmarked := by
  cases queue with
  | nil => rfl
  | cons top rest => rfl

theorem entry_of_saved (path : String) {pktRec : PktRecord}
    (bounded : pktRec.count ≤ maxPacketCountPerIter) :
    entryOf (path, saveSeqBufToFile2 pktRec) =
      ⟨path, pktRec.count, getPktSeqTotalLen pktRec, none⟩ := by
  have packets := mapped_saved bounded
  have count : (mappedRecord (saveSeqBufToFile2 pktRec)).count = pktRec.count := by
    rw [mapped_record_count, packets]
    rfl
  have total : getPktSeqTotalLen (mappedRecord (saveSeqBufToFile2 pktRec)) =
      getPktSeqTotalLen pktRec := by
    unfold getPktSeqTotalLen mappedRecord
    dsimp only
    rw [packets]
  simp only [entryOf, count, total]

theorem kept_entries (outDir : String) (state : CoverageState) (run : FinishedRun) :
    (keepRun outDir state run).1.queue.map unmarked =
      ((keepRun outDir state run).2.map fun path =>
        (⟨path, run.pktRec.count, getPktSeqTotalLen run.pktRec, none⟩ : QueueEntry)).toList ++
          state.queue.map unmarked := by
  unfold keepRun saveIfInteresting
  generalize hasNewBits run.traceBits state.virginBits = scanned
  dsimp only
  generalize seedName outDir (corpusGetCoverage run.traceBits) run.totalExecTimes.toUInt32
    state.queuedPaths = path
  split_ifs with counted nothing brandNew
  · rfl
  · dsimp only
    rw [mark_new_cov_unmarked]
    rfl
  · rfl
  · rfl

theorem after_run_in_step {fuzzer : FuzzerState} (messages : List Message) (run : FinishedRun)
    (outDir : String) (short : run.pktRec.count ≤ maxPacketCountPerIter)
    (inStep : InStep fuzzer) : InStep (afterRun outDir fuzzer messages run) := by
  have entries := kept_entries outDir fuzzer.coverage run
  unfold InStep at inStep ⊢
  rcases after_run_seeds outDir fuzzer messages run with ⟨unkept, seeds⟩ | ⟨path, kept, seeds⟩
  · rw [unkept] at entries
    change ((keepRun outDir fuzzer.coverage run).1.queue.map unmarked).Perm _
    rw [entries, seeds]
    exact inStep
  · rw [kept] at entries
    change ((keepRun outDir fuzzer.coverage run).1.queue.map unmarked).Perm _
    rw [entries, seeds, List.map_cons, entry_of_saved path short]
    exact inStep.cons _

section

variable {first fuzzer : FuzzerState} {runs : List SeedRun} {outDir : String}

theorem history_in_step (history : History outDir first runs fuzzer) (bounded : Bounded first)
    (inStep : InStep first) : InStep fuzzer := by
  induction history with
  | start => exact inStep
  | fuzz run earlier gone induction =>
      have short := run.count_le (history_bounded earlier bounded)
      exact after_run_in_step _ _ outDir short induction
  | restart messages listing earlier listed induction => exact loaded_in_step listing

theorem history_directory (history : History outputSeedPath first runs fuzzer) :
    fuzzer.seeds.Perm (first.seeds ++ runs.filterMap keptSeed) := by
  induction history with
  | start =>
      rw [List.filterMap_nil, List.append_nil]
  | @fuzz runs run fault earlier gone induction =>
      rw [List.filterMap_append, ← List.append_assoc]
      have kept := kept_seed_eq gone
      rcases after_run_seeds outputSeedPath run.fuzzer run.state.queue (run.finished fault) with
        ⟨unkept, seeds⟩ | ⟨path, saved, seeds⟩
      · rw [unkept] at kept
        have none : [run].filterMap keptSeed = [] := List.filterMap_cons_none kept
        rw [seeds, none, List.append_nil]
        exact induction
      · rw [saved] at kept
        have one : [run].filterMap keptSeed = [(path, saveSeqBufToFile2 run.state.pktRec)] :=
          List.filterMap_cons_some kept
        rw [seeds, one]
        exact (induction.cons _).trans (List.perm_append_singleton _ _).symm
  | restart messages listing earlier listed induction => exact listed.trans induction

theorem history_runs_bounded (history : History outDir first runs fuzzer)
    (bounded : Bounded first) : ∀ run ∈ runs, Bounded run.fuzzer := by
  induction history with
  | start => exact fun _ member => absurd member List.not_mem_nil
  | fuzz run earlier gone induction =>
      intro other member
      cases List.mem_append.mp member with
      | inl before => exact induction other before
      | inr last =>
          rw [List.mem_singleton.mp last]
          exact history_bounded earlier bounded
  | restart messages listing earlier listed induction => exact induction

/-- The packets that a run replays are those of the first seed, or an earlier run has
recorded them, was kept, and has left them under the name that is opened. -/
def Descends (seed : String × SeedFile) (front : List SeedRun) (run : SeedRun) : Prop :=
  run.entry.fname = seed.1 ∧ run.corpus = (mapSeed seed.2).packets ∨
    ∃ earlier ∈ front, (keptSeed earlier).map Prod.fst = some run.entry.fname ∧
      run.corpus = earlier.state.pktRec.packets

theorem opened_descends {seed : String × SeedFile} {run : SeedRun}
    (history : History outputSeedPath first runs run.fuzzer) (bounded : Bounded first)
    (single : first.seeds = [seed]) : Descends seed runs run := by
  have directory := history_directory history
  rw [single] at directory
  have opened := directory.mem_iff.mp (opened_member run.opened)
  cases List.mem_cons.mp opened with
  | inl same =>
      left
      rw [← same]
      exact ⟨rfl, run.mapped.symm⟩
  | inr kept =>
      right
      obtain ⟨earlier, member, left⟩ := List.mem_filterMap.mp kept
      refine ⟨earlier, member, ?_, ?_⟩
      · rw [left]
        rfl
      · have file : run.file = saveSeqBufToFile2 earlier.state.pktRec := kept_seed_file left
        rw [← run.mapped, file]
        exact mapped_saved (earlier.count_le (history_runs_bounded history bounded earlier member))

theorem history_descends {seed : String × SeedFile}
    (history : History outputSeedPath first runs fuzzer) (bounded : Bounded first)
    (single : first.seeds = [seed]) {front rest : List SeedRun} {run : SeedRun}
    (split : runs = front ++ run :: rest) : Descends seed front run := by
  induction history generalizing rest with
  | start => simp at split
  | @fuzz runs last fault earlier gone induction =>
      cases List.eq_nil_or_concat rest with
      | inl none =>
          rw [none] at split
          obtain ⟨same, one⟩ := List.append_inj' split rfl
          cases one
          rw [← same]
          exact opened_descends earlier bounded single
      | inr some =>
          obtain ⟨between, final, more⟩ := some
          rw [more, List.concat_eq_append, ← List.cons_append, ← List.append_assoc] at split
          exact induction (List.append_inj' split rfl).1
  | restart messages listing earlier listed induction => exact induction split

end

theorem lookup_of_mem {seeds : List (String × SeedFile)} {seed : String × SeedFile}
    (different : (seeds.map Prod.fst).Nodup) (member : seed ∈ seeds) :
    seeds.lookup seed.1 = some seed.2 := by
  induction seeds with
  | nil => exact absurd member List.not_mem_nil
  | cons newest older induction =>
      rw [List.map_cons, List.nodup_cons] at different
      cases List.mem_cons.mp member with
      | inl same =>
          rw [same]
          exact List.lookup_cons_self
      | inr earlier =>
          have apart : (seed.1 == newest.1) = false := by
            apply beq_eq_false_iff_ne.mpr
            intro same
            apply different.1
            rw [← same]
            exact List.mem_map_of_mem earlier
          rw [List.lookup_cons, apart]
          exact induction different.2 earlier

theorem collected_chain {first : CollectRun} {seed : String × SeedFile}
    (saved : (first.fuzzer outputSeedPath).seeds = [seed]) :
    Chain (first.fuzzer outputSeedPath) 0 := by
  have member : seed ∈ (first.fuzzer outputSeedPath).seeds := by
    rw [saved]
    exact List.mem_singleton_self seed
  obtain ⟨initCorpus, -, written⟩ := (collected_bounded first outputSeedPath).seeds seed member
  have collected : collectedSeeds outputSeedPath first.state.saves = [seed] := saved
  have path : seed.1 = outputSeedPath ++ "/init_corpus" := by
    change seed ∈ collectedSeeds outputSeedPath first.state.saves at member
    obtain ⟨save, -, same⟩ := List.mem_map.mp member
    rw [← same]
  have same : collectedSeeds outputSeedPath first.state.saves =
      collectedSeeds outputSeedPath [(.seed, saveSeqBufToFile2 initCorpus)] := by
    rw [collected, ← written]
    change [seed] = [(outputSeedPath ++ "/init_corpus", seed.2)]
    rw [← path]
  have start := Chain.first first.state.queue initCorpus
  unfold collectInitCorpus at start
  rw [← same] at start
  exact start

theorem history_chain {first fuzzer : FuzzerState} {runs : List SeedRun}
    (history : History outputSeedPath first runs fuzzer) {earlier : Nat}
    (chain : Chain first earlier) : ∃ kept, Chain fuzzer kept := by
  induction history with
  | start => exact ⟨earlier, chain⟩
  | fuzz run before gone induction =>
      obtain ⟨kept, chain⟩ := induction
      exact ⟨_, chain.run run.state.queue (run.finished _)⟩
  | restart messages listing before listed induction =>
      obtain ⟨kept, chain⟩ := induction
      exact ⟨kept, chain.restart messages listing listed⟩

/-- What holds at every point of the campaigns on one directory. -/
structure Resumable (seed : String × SeedFile) (runs : List SeedRun) (fuzzer : FuzzerState) :
    Prop where
  directory : fuzzer.seeds.Perm (seed :: runs.filterMap keptSeed)
  different : (fileNames fuzzer).Nodup
  opens : ∀ entry ∈ fuzzer.coverage.queue, ∃ file, fuzzer.seeds.lookup entry.fname = some file ∧
    unmarked entry = entryOf (entry.fname, file)
  reloads : ∀ listing : List (String × SeedFile), listing.Perm fuzzer.seeds →
    ((loadCorpusToQueue listing setupShm).queue.map unmarked).Perm
      (fuzzer.coverage.queue.map unmarked)
  descends : ∀ front run rest, runs = front ++ run :: rest → Descends seed front run

/-- A campaign can be resumed at any time: the directory holds exactly the first seed and
what the kept runs have recorded, under different names; every entry of the queue
describes the file it opens; the queue that is loaded next is the present one, whatever
the order of the directory; and every run replays what an earlier kept one has recorded. -/
theorem campaign_resumable (first : CollectRun) (seed : String × SeedFile) (runs : List SeedRun)
    (fuzzer : FuzzerState) (saved : (first.fuzzer outputSeedPath).seeds = [seed])
    (history : History outputSeedPath (first.fuzzer outputSeedPath) runs fuzzer)
    (few : fuzzer.seeds.length < 2 ^ 31) : Resumable seed runs fuzzer := by
  have bounded := collected_bounded first outputSeedPath
  have inStep : InStep fuzzer :=
    history_in_step history bounded (loaded_in_step (first.fuzzer outputSeedPath).seeds)
  obtain ⟨kept, chain⟩ := history_chain history (collected_chain saved)
  have different := (chain_named chain few).different
  constructor
  · have directory := history_directory history
    rwa [saved] at directory
  · exact different
  · intro entry member
    have queued := inStep.mem_iff.mp (List.mem_map_of_mem (f := unmarked) member)
    obtain ⟨source, found, same⟩ := List.mem_map.mp queued
    have name : source.1 = entry.fname := congrArg QueueEntry.fname same
    refine ⟨source.2, ?_, ?_⟩
    · rw [← name]
      exact lookup_of_mem different found
    · rw [← name, ← same]
  · intro listing listed
    exact ((loaded_in_step listing).trans (listed.map entryOf)).trans inStep.symm
  · intro front run rest split
    exact history_descends history bounded saved split

/-- A run that is kept after the first seed has been collected. -/
theorem answered_seed_resumed : ∃ seed run fuzzer,
    (keptSeed run).isSome ∧ Resumable seed [run] fuzzer := by
  obtain ⟨first, entry, file, slot, collected⟩ := headed_collected outputSeedPath
  obtain ⟨after, mutates, -⟩ := quiet_run (copyBlePkt (headedPacket 27) slot).2
  obtain ⟨run, same, -, edge, -, served⟩ := one_slot_run collected.replayable
    (.fieldAware mixedConfig) 27 quietInput oneEdge.traceBits mutates
  have empty : History outputSeedPath (first.fuzzer outputSeedPath) [] run.fuzzer := by
    rw [same]
    exact .start
  have untouched : run.fuzzer.coverage.virginBits = setupShm.virginBits := by
    rw [same]
    exact collected.virginBits
  obtain ⟨path, kept⟩ := @edge_kept outputSeedPath run.fuzzer.coverage (run.finished .timeout)
    untouched rfl edge
  have left := kept_seed_eq served.gone
  rw [kept] at left
  have few : (afterRun outputSeedPath run.fuzzer run.state.queue
      (run.finished .timeout)).seeds.length < 2 ^ 31 := by
    rcases after_run_seeds outputSeedPath run.fuzzer run.state.queue (run.finished .timeout) with
      ⟨-, seeds⟩ | ⟨other, -, seeds⟩
    · rw [seeds, same, collected.single, List.length_singleton]
      decide
    · rw [seeds, same, collected.single, List.length_cons, List.length_singleton]
      decide
  refine ⟨_, run, _, ?_, campaign_resumable first _ [run] _ collected.single
    (empty.fuzz run served.gone) few⟩
  rw [left]
  rfl

end Blueman.ResumedCampaign
