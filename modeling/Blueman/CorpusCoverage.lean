import Blueman.KeptSeeds
import Blueman.Library.Novelty

/-!
# The corpus reaches everything

What the code decides by its virgin map is a search that keeps a run if its trace has a
bit that no kept run has. So the kept runs have hit all that any counted run has hit,
none of them without adding to the ones before it, and the queue lists them.
-/

namespace Blueman.CorpusCoverage

open LittleEndian ByteScan PacketRecord Coverage SeedCampaign KeptSeeds Novelty

set_option autoImplicit false

def traced (run : FinishedRun) : Set (Nat × Nat) :=
  fun place => place.1 < mapSize ∧ place.2 < 8 ∧
    (run.traceBits place.1).toBitVec.getLsbD place.2 = true

def keptRuns (outDir : String) (start : CoverageState) (runs : List FinishedRun) :
    List FinishedRun :=
  (runs.foldl (fun state run =>
    ((keepRun outDir state.1 run).1,
      if (keepRun outDir state.1 run).2.isSome then state.2 ++ [run] else state.2)) (start, [])).2

section

variable {outDir : String} {start : CoverageState} {runs : List FinishedRun} {run : FinishedRun}

theorem kept_runs_append : keptRuns outDir start (runs ++ [run]) =
    if (keepRun outDir (keepRuns outDir start runs).1 run).2.isSome
    then keptRuns outDir start runs ++ [run] else keptRuns outDir start runs := by
  have same : (runs.foldl (fun state run =>
      ((keepRun outDir state.1 run).1,
        if (keepRun outDir state.1 run).2.isSome then state.2 ++ [run] else state.2))
      (start, ([] : List FinishedRun))).1 = (keepRuns outDir start runs).1 := by
    induction runs using List.reverseRecOn with
    | nil => rfl
    | append_singleton runs last induction =>
        rw [keep_runs_append, List.foldl_append]
        simp only [List.foldl_cons, List.foldl_nil, induction]
  unfold keptRuns
  rw [List.foldl_append]
  simp only [List.foldl_cons, List.foldl_nil, same]

theorem keep_runs_virgin (seeds : List (String × SeedFile)) :
    (keepRuns outDir (loadCorpusToQueue seeds setupShm) runs).1.virginBits =
      (coverageAfter outDir runs).virginBits := by
  induction runs using List.reverseRecOn with
  | nil => exact load_corpus_virgin seeds setupShm
  | append_singleton runs run induction =>
      rw [keep_runs_append, coverage_after_append]
      dsimp only
      rw [keep_run_virgin, keep_run_virgin, induction]

theorem new_bit_iff : NewBit runs run ↔ Adds traced (runs.filter FinishedRun.counted) run := by
  have clear : ∀ position bit, (∀ trace ∈ countedTraces runs,
      (trace position).toBitVec.getLsbD bit = false) ↔
      ∀ earlier ∈ runs.filter FinishedRun.counted,
        (earlier.traceBits position).toBitVec.getLsbD bit = false := by
    intro position bit
    exact List.forall_mem_map
  constructor
  · intro ⟨position, bit, inside, inByte, set, fresh⟩ covered
    have reached : (position, bit) ∈ joined traced (runs.filter FinishedRun.counted) :=
      covered ⟨inside, inByte, set⟩
    obtain ⟨earlier, member, -, -, before⟩ := mem_joined.mp reached
    have untouched := (clear position bit).mp fresh earlier member
    rw [before] at untouched
    cases untouched
  · intro adds
    obtain ⟨⟨position, bit⟩, ⟨inside, inByte, set⟩, outside⟩ := Set.not_subset.mp adds
    refine ⟨position, bit, inside, inByte, set, (clear position bit).mpr ?_⟩
    intro earlier member
    by_contra before
    rw [Bool.not_eq_false] at before
    exact outside (mem_joined.mpr ⟨earlier, member, inside, inByte, before⟩)

theorem keep_run_iff (seeds : List (String × SeedFile)) :
    (keepRun outDir (keepRuns outDir (loadCorpusToQueue seeds setupShm) runs).1 run).2.isSome =
        true ↔
      run.counted = true ∧ Adds traced (runs.filter FinishedRun.counted) run := by
  unfold keepRun
  split_ifs with counted
  · rw [save_if_interesting_keeps, keep_runs_virgin, new_bits_iff, new_bit_iff]
    simp [counted]
  · simp [counted]

theorem kept_runs_novel (seeds : List (String × SeedFile)) :
    keptRuns outDir (loadCorpusToQueue seeds setupShm) runs =
      novel traced (runs.filter FinishedRun.counted) := by
  induction runs using List.reverseRecOn with
  | nil => rfl
  | append_singleton runs run induction =>
      have decides := @keep_run_iff outDir runs run seeds
      rw [kept_runs_append, induction, List.filter_append]
      by_cases counted : run.counted = true
      · have counts : [run].filter FinishedRun.counted = [run] := by simp [counted]
        rw [counts]
        by_cases adds : Adds traced (runs.filter FinishedRun.counted) run
        · rw [if_pos (decides.mpr ⟨counted, adds⟩), novel_keep (adds_novel_iff.mpr adds)]
        · rw [if_neg fun kept => adds (decides.mp kept).2,
            novel_drop fun new => adds (adds_novel_iff.mp new)]
      · have ignored : [run].filter FinishedRun.counted = [] := by simp [counted]
        rw [ignored, List.append_nil, if_neg fun kept => counted (decides.mp kept).1]

/-- The run has hit a position that none of the others has. -/
def NewPosition (before : List FinishedRun) (run : FinishedRun) : Prop :=
  ∃ position < mapSize, run.traceBits position ≠ 0 ∧
    ∀ earlier ∈ before, earlier.traceBits position = 0

/-- The entry of a run that has been kept after others. Without a new position its
`has_new_cov` is never written. -/
structure Describes (before : List FinishedRun) (run : FinishedRun) (entry : QueueEntry) :
    Prop where
  count : entry.count = run.pktRec.count
  len : entry.len = getPktSeqTotalLen run.pktRec
  written : NewPosition before run → entry.hasNewCov = some 1
  unwritten : ¬NewPosition before run → entry.hasNewCov = none

/-- The queue lists the kept runs, the last one first, in front of what was loaded. -/
inductive Queued (loaded : List QueueEntry) : List FinishedRun → List QueueEntry → Prop
  | loaded : Queued loaded [] loaded
  | keep {kept : List FinishedRun} {run : FinishedRun} {queue : List QueueEntry}
      {entry : QueueEntry} (earlier : Queued loaded kept queue)
      (describes : Describes kept run entry) : Queued loaded (kept ++ [run]) (entry :: queue)

theorem kept_entry {state : CoverageState}
    (kept : (keepRun outDir state run).2.isSome = true) :
    ∃ entry, (keepRun outDir state run).1.queue = entry :: state.queue ∧
      entry.count = run.pktRec.count ∧ entry.len = getPktSeqTotalLen run.pktRec ∧
      entry.hasNewCov =
        if (hasNewBits run.traceBits state.virginBits).2 = 2 then some 1 else none := by
  unfold keepRun at kept ⊢
  unfold saveIfInteresting at kept ⊢
  generalize hasNewBits run.traceBits state.virginBits = scanned at kept ⊢
  generalize seedName outDir (corpusGetCoverage run.traceBits) run.totalExecTimes.toUInt32
    state.queuedPaths = path at kept ⊢
  dsimp only at kept ⊢
  by_cases counted : run.counted = true
  · by_cases nothing : scanned.2 = 0
    · simp [counted, nothing] at kept
    · by_cases brandNew : scanned.2 = 2
      · simp only [if_pos counted, if_neg nothing, if_pos brandNew]
        exact ⟨_, rfl, rfl, rfl, rfl⟩
      · simp only [if_pos counted, if_neg nothing, if_neg brandNew]
        exact ⟨_, rfl, rfl, rfl, rfl⟩
  · simp [counted] at kept

theorem dropped_queue {state : CoverageState}
    (dropped : ¬(keepRun outDir state run).2.isSome = true) :
    (keepRun outDir state run).1.queue = state.queue := by
  rcases keep_run_queue outDir state run with ⟨-, same⟩ | ⟨path, _, found, -⟩
  · exact same
  · rw [found] at dropped
    exact absurd rfl dropped

theorem unhit_iff {position : Nat} (inside : position < mapSize) :
    (∀ earlier ∈ runs, earlier.traceBits position = 0) ↔
      ∀ bit, (position, bit) ∉ joined traced runs := by
  constructor
  · intro unhit bit reached
    obtain ⟨earlier, member, -, inByte, set⟩ := mem_joined.mp reached
    have clear := (byte_eq_zero_iff _).mp (unhit earlier member) bit inByte
    rw [clear] at set
    cases set
  · intro unreached earlier member
    apply (byte_eq_zero_iff _).mpr
    intro bit inByte
    by_contra set
    rw [Bool.not_eq_false] at set
    exact unreached bit (mem_joined.mpr ⟨earlier, member, inside, inByte, set⟩)

theorem new_position_iff (seeds : List (String × SeedFile)) :
    (hasNewBits run.traceBits
        (keepRuns outDir (loadCorpusToQueue seeds setupShm) runs).1.virginBits).2 = 2 ↔
      NewPosition (keptRuns outDir (loadCorpusToQueue seeds setupShm) runs) run := by
  unfold NewPosition
  rw [keep_runs_virgin, new_bytes_iff, firstHits, count_pos_iff]
  apply exists_congr
  intro position
  apply and_congr_right
  intro inside
  apply and_congr_right
  intro _
  rw [unhit_iff inside, kept_runs_novel, joined_novel, ← unhit_iff inside]
  exact List.forall_mem_map

theorem keep_runs_queued (seeds : List (String × SeedFile)) :
    Queued (loadCorpusToQueue seeds setupShm).queue
      (keptRuns outDir (loadCorpusToQueue seeds setupShm) runs)
      (keepRuns outDir (loadCorpusToQueue seeds setupShm) runs).1.queue := by
  induction runs using List.reverseRecOn with
  | nil => exact .loaded
  | append_singleton runs run induction =>
      rw [kept_runs_append, keep_runs_append]
      dsimp only
      split_ifs with kept
      · obtain ⟨entry, queued, count, len, newCov⟩ := kept_entry kept
        rw [queued]
        have new := @new_position_iff outDir runs run seeds
        refine .keep induction ⟨count, len, ?_, ?_⟩
        · intro hit
          rw [newCov, if_pos (new.mpr hit)]
        · intro known
          rw [newCov, if_neg (mt new.mp known)]
      · rwa [dropped_queue kept]

end

/-- For every campaign: the runs it keeps are those of a search that keeps a run exactly if
its trace has a bit that no kept run has; they have hit together all that the counted runs
have; each has added to the ones before it; and the queue lists them. -/
theorem corpus_covers (outDir : String) (seeds : List (String × SeedFile))
    (runs : List FinishedRun) :
    let start := loadCorpusToQueue seeds setupShm
    let kept := keptRuns outDir start runs
    kept = novel traced (runs.filter FinishedRun.counted) ∧
      joined traced kept = joined traced (runs.filter FinishedRun.counted) ∧
      (∀ front run rest, kept = front ++ run :: rest → Adds traced front run) ∧
      Queued start.queue kept (keepRuns outDir start runs).1.queue := by
  dsimp only
  have refines := @kept_runs_novel outDir runs seeds
  refine ⟨refines, ?_, ?_, keep_runs_queued seeds⟩
  · rw [refines]
    exact joined_novel traced _
  · intro front run rest split
    rw [refines] at split
    exact novel_adds split

end Blueman.CorpusCoverage
