import Blueman.SeedCampaign

/-!
# How many seeds a campaign can keep

A run is kept only if it clears a bit of the virgin map, and no run sets one
again. So the runs kept and the bits still set never exceed the bits of the map,
and the counter of queued paths, which is 32 bits wide, does not wrap.
-/

namespace Blueman.KeptSeeds

open LittleEndian ByteScan BlePacket PacketRecord RunOutcome Coverage SeedCampaign

set_option autoImplicit false

/-- The coverage after some runs, and for how many of them `save_if_interesting`
has returned 1. -/
def keepRuns (outDir : String) (start : CoverageState) (runs : List FinishedRun) :
    CoverageState × Nat :=
  runs.foldl (fun state run =>
    ((keepRun outDir state.1 run).1,
      if (keepRun outDir state.1 run).2.isSome then state.2 + 1 else state.2)) (start, 0)

def bitSet (mem : Memory) (index : Nat) : Prop :=
  (mem (index / 8)).toBitVec.getLsbD (index % 8) = true

instance (mem : Memory) : DecidablePred (bitSet mem) :=
  fun _ => inferInstanceAs (Decidable (_ = true))

def setBits (mem : Memory) : Nat := Nat.count (bitSet mem) (8 * mapSize)

theorem set_bits_le (mem : Memory) : setBits mem ≤ 8 * mapSize := Nat.count_le _

theorem keep_runs_append (outDir : String) (start : CoverageState) (runs : List FinishedRun)
    (run : FinishedRun) :
    keepRuns outDir start (runs ++ [run]) =
      ((keepRun outDir (keepRuns outDir start runs).1 run).1,
        if (keepRun outDir (keepRuns outDir start runs).1 run).2.isSome
        then (keepRuns outDir start runs).2 + 1 else (keepRuns outDir start runs).2) :=
  List.foldl_append

theorem has_new_bits_subset (traceBits virginMap : Memory) (index : Nat)
    (left : bitSet (hasNewBits traceBits virginMap).1 index) : bitSet virginMap index := by
  unfold bitSet at left ⊢
  rw [(has_new_bits_scanned traceBits virginMap).cleared] at left
  split_ifs at left
  · rw [UInt8.toBitVec_and, BitVec.getLsbD_and, Bool.and_eq_true] at left
    exact left.1
  · exact left

theorem has_new_bits_clears (traceBits virginMap : Memory)
    (new : (hasNewBits traceBits virginMap).2 ≠ 0) :
    ∃ index, index < 8 * mapSize ∧ bitSet virginMap index ∧
      ¬bitSet (hasNewBits traceBits virginMap).1 index := by
  obtain ⟨position, inside, overlap⟩ := (has_new_bits_scanned traceBits virginMap).newBits.mp new
  rw [map_words.1] at inside
  rw [Ne, byte_eq_zero_iff] at overlap
  push Not at overlap
  obtain ⟨bit, inByte, both⟩ := overlap
  have place : (8 * position + bit) / 8 = position ∧ (8 * position + bit) % 8 = bit := by omega
  rw [Ne, Bool.not_eq_false, UInt8.toBitVec_and, BitVec.getLsbD_and, Bool.and_eq_true] at both
  refine ⟨8 * position + bit, by omega, ?_, ?_⟩
  · unfold bitSet
    rw [place.1, place.2]
    exact both.2
  · unfold bitSet
    rw [place.1, place.2, has_new_bits_virgin traceBits virginMap position inside,
      UInt8.toBitVec_and, UInt8.toBitVec_not, BitVec.getLsbD_and, BitVec.getLsbD_not, both.1]
    simp

theorem has_new_bits_set_bits (traceBits virginMap : Memory) :
    setBits (hasNewBits traceBits virginMap).1 ≤ setBits virginMap :=
  Nat.count_mono_left fun index _ => has_new_bits_subset traceBits virginMap index

theorem has_new_bits_fewer (traceBits virginMap : Memory)
    (new : (hasNewBits traceBits virginMap).2 ≠ 0) :
    setBits (hasNewBits traceBits virginMap).1 < setBits virginMap := by
  apply count_lt_of_lost
  · exact has_new_bits_subset traceBits virginMap
  · exact has_new_bits_clears traceBits virginMap new

theorem keep_run_set_bits (outDir : String) (state : CoverageState) (run : FinishedRun) :
    (if (keepRun outDir state run).2.isSome then 1 else 0) +
      setBits (keepRun outDir state run).1.virginBits ≤ setBits state.virginBits := by
  rw [keep_run_virgin]
  split_ifs with kept counted
  · unfold keepRun at kept
    rw [if_pos counted, save_if_interesting_keeps] at kept
    have fewer := has_new_bits_fewer run.traceBits state.virginBits kept
    omega
  · unfold keepRun at kept
    rw [if_neg counted] at kept
    cases kept
  · have never := has_new_bits_set_bits run.traceBits state.virginBits
    omega
  · omega

theorem load_corpus_virgin (seeds : List (String × SeedFile)) (state : CoverageState) :
    (loadCorpusToQueue seeds state).virginBits = state.virginBits := by
  induction seeds generalizing state with
  | nil => rfl
  | cons seed rest induction => exact induction _

theorem keep_run_queued_paths (outDir : String) (state : CoverageState) (run : FinishedRun) :
    (keepRun outDir state run).1.queuedPaths =
      if (keepRun outDir state run).2.isSome then state.queuedPaths + 1 else state.queuedPaths := by
  unfold keepRun saveIfInteresting
  generalize hasNewBits run.traceBits state.virginBits = scanned
  generalize seedName outDir (corpusGetCoverage run.traceBits) run.totalExecTimes.toUInt32
    state.queuedPaths = path
  dsimp only
  split_ifs
  all_goals simp_all [addToQueue]

theorem keep_runs_set_bits (outDir : String) (start : CoverageState) (runs : List FinishedRun) :
    (keepRuns outDir start runs).2 + setBits (keepRuns outDir start runs).1.virginBits ≤
      setBits start.virginBits := by
  induction runs using List.reverseRecOn with
  | nil => exact Nat.le_of_eq (Nat.zero_add _)
  | append_singleton runs run induction =>
      have next := keep_run_set_bits outDir (keepRuns outDir start runs).1 run
      rw [keep_runs_append]
      dsimp only
      split_ifs at next ⊢
      · omega
      · omega

theorem load_corpus_queued_paths (seeds : List (String × SeedFile)) (state : CoverageState) :
    (loadCorpusToQueue seeds state).queuedPaths =
      state.queuedPaths + UInt32.ofNat seeds.length := by
  induction seeds generalizing state with
  | nil => exact (UInt32.add_zero _).symm
  | cons seed rest induction =>
      have loaded : (loadCorpusToQueue (seed :: rest) state).queuedPaths =
          state.queuedPaths + 1 + UInt32.ofNat rest.length := induction _
      rw [loaded, List.length_cons, UInt32.ofNat_add, UInt32.add_assoc,
        UInt32.add_comm 1 (UInt32.ofNat rest.length)]
      rfl

theorem keep_runs_queued_paths (outDir : String) (start : CoverageState)
    (runs : List FinishedRun) :
    (keepRuns outDir start runs).1.queuedPaths =
      start.queuedPaths + UInt32.ofNat (keepRuns outDir start runs).2 := by
  induction runs using List.reverseRecOn with
  | nil => exact (UInt32.add_zero _).symm
  | append_singleton runs run induction =>
      rw [keep_runs_append]
      dsimp only
      rw [keep_run_queued_paths, induction]
      split_ifs
      · rw [UInt32.ofNat_add, UInt32.add_assoc]
        rfl
      · rfl

/-- After any runs, from any seeds: the runs kept and the bits left never exceed
the bits of the map, and the counter of queued paths counts without wrapping. -/
theorem kept_seeds_bounded (outDir : String) (seeds : List (String × SeedFile))
    (runs : List FinishedRun) :
    (keepRuns outDir (loadCorpusToQueue seeds setupShm) runs).2 +
        setBits (keepRuns outDir (loadCorpusToQueue seeds setupShm) runs).1.virginBits ≤
      8 * mapSize ∧
    (keepRuns outDir (loadCorpusToQueue seeds setupShm) runs).2 ≤ 1048576 ∧
    (seeds.length < 2 ^ 31 →
      (keepRuns outDir (loadCorpusToQueue seeds setupShm) runs).1.queuedPaths.toNat =
        seeds.length + (keepRuns outDir (loadCorpusToQueue seeds setupShm) runs).2) := by
  have left := keep_runs_set_bits outDir (loadCorpusToQueue seeds setupShm) runs
  have all := set_bits_le (loadCorpusToQueue seeds setupShm).virginBits
  have size : 8 * mapSize = 1048576 := by decide
  refine ⟨Nat.le_trans left all, by omega, ?_⟩
  intro few
  rw [keep_runs_queued_paths, load_corpus_queued_paths, UInt32.toNat_add, UInt32.toNat_add]
  rw [UInt32.toNat_ofNat', UInt32.toNat_ofNat']
  have none : setupShm.queuedPaths.toNat = 0 := rfl
  omega

def oneSeed : List (String × SeedFile) := [("seeds/init_corpus", ⟨16, fun _ => 0⟩)]

/-- One seed loaded, one run kept. -/
theorem one_kept_counted :
    (keepRuns "seeds" (loadCorpusToQueue oneSeed setupShm) [oneEdge]).1.queuedPaths.toNat =
      oneSeed.length + (keepRuns "seeds" (loadCorpusToQueue oneSeed setupShm) [oneEdge]).2 :=
  (kept_seeds_bounded "seeds" oneSeed [oneEdge]).2.2 (by decide)

end Blueman.KeptSeeds
