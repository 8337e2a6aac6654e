import Blueman.KeptSeeds

/-!
# The names of the seed files

Campaigns one after the other on one seed directory, each of which loads what
the earlier ones have left. A kept run is saved under a name made of its coverage,
its number and the counter of queued paths. The first two can repeat; the last
is the number of files in the directory, which no earlier name has used.
-/

namespace Blueman.SeedNames

open LittleEndian BlePacket PacketRecord RunOutcome Coverage FuzzRun SeedCampaign KeptSeeds

set_option autoImplicit false

def outputSeedPath : String := "./output/seed/"

def initCorpusName : String := outputSeedPath ++ "/init_corpus"

/-- Campaigns on one seed directory: the fuzzer now, and the runs kept so far. The
directory may be listed in any order, and a campaign may end after any run. -/
inductive Chain : FuzzerState → Nat → Prop
  | first (messages : List Message) (initCorpus : PktRecord) :
      Chain (collectInitCorpus outputSeedPath messages
        [(.seed, saveSeqBufToFile2 initCorpus)]) 0
  | run {fuzzer : FuzzerState} {kept : Nat} (messages : List Message) (run : FinishedRun)
      (earlier : Chain fuzzer kept) :
      Chain (afterRun outputSeedPath fuzzer messages run)
        (if (keepRun outputSeedPath fuzzer.coverage run).2.isSome then kept + 1 else kept)
  | restart {fuzzer : FuzzerState} {kept : Nat} (messages : List Message)
      (listing : List (String × SeedFile)) (earlier : Chain fuzzer kept)
      (listed : listing.Perm fuzzer.seeds) :
      Chain ⟨messages, listing, loadCorpusToQueue listing setupShm⟩ kept

theorem padded_chars (width number : Nat) :
    (padded width number).toList =
      List.replicate (width - (Nat.toDigits 10 number).length) '0' ++ Nat.toDigits 10 number := by
  have digits : (toString number).toList = Nat.toDigits 10 number := by
    simp [Nat.repr_eq_ofList_toDigits]
  rw [padded, String.toList_append, String.toList_ofList, ← String.length_toList, digits]

theorem padded_digits (width number : Nat) :
    ∀ digit ∈ (padded width number).toList, digit ≠ '_' := by
  intro digit member
  rw [padded_chars] at member
  rcases List.mem_append.mp member with zero | isDigit
  · rw [List.eq_of_mem_replicate zero]
    decide
  · have numeral := Nat.isDigit_of_mem_toDigits (by decide) (by decide) isDigit
    rintro rfl
    cases numeral

theorem padded_value (width number : Nat) :
    Nat.ofDigitChars 10 (padded width number).toList 0 = number := by
  rw [padded_chars, Nat.ofDigitChars_append, Nat.ofDigitChars_replicate_zero, Nat.mul_zero,
    Nat.ofDigitChars_ten_toDigits]

theorem padded_length (width number : Nat) (fits : number < 2 ^ 32) :
    (padded width number).toList.length ≤ max width 10 := by
  have digits : (Nat.toDigits 10 number).length ≤ 10 :=
    (Nat.length_toDigits_le_iff (by decide) (by decide)).mpr (Nat.lt_trans fits (by decide))
  rw [padded_chars, List.length_append, List.length_replicate]
  omega

def namePrefix (outDir : String) (covCount : Nat) (round : UInt32) : List Char :=
  (outDir ++ "/id_" ++ padded 8 covCount ++ "_" ++ padded 16 round.toNat).toList

theorem seed_name_chars (outDir : String) (covCount : Nat) (round queuedPaths : UInt32)
    (short : outDir.toList.length ≤ 200) (fits : covCount < 2 ^ 32) :
    (seedName outDir covCount round queuedPaths).toList =
      namePrefix outDir covCount round ++ '_' :: (padded 6 queuedPaths.toNat).toList := by
  have first := padded_length 8 covCount fits
  have second := padded_length 16 round.toNat round.toNat_lt
  have third := padded_length 6 queuedPaths.toNat queuedPaths.toNat_lt
  have separator : "_".toList = ['_'] := rfl
  have identifier : "/id_".toList.length = 4 := rfl
  rw [seedName, String.toList_ofList, List.take_of_length_le]
  · simp only [namePrefix, String.toList_append, separator, List.append_assoc, List.cons_append,
      List.nil_append]
  · simp only [String.toList_append, List.length_append, separator, identifier,
      List.length_singleton]
    omega

theorem last_field_eq {front other : List Char} {field different : List Char}
    (same : front ++ '_' :: field = other ++ '_' :: different)
    (digits : ∀ digit ∈ field, digit ≠ '_') (others : ∀ digit ∈ different, digit ≠ '_') :
    field = different := by
  have taken {start ending : List Char} (plain : ∀ digit ∈ ending, digit ≠ '_') :
      (start ++ '_' :: ending).reverse.takeWhile (· ≠ '_') = ending.reverse := by
    rw [List.reverse_append, List.reverse_cons, List.append_assoc, List.takeWhile_append_of_pos]
    · simp
    · intro digit member
      simpa using plain digit (List.mem_reverse.mp member)
  have reversed := congrArg (fun chars => chars.reverse.takeWhile (· ≠ '_')) same
  rw [taken digits, taken others] at reversed
  exact List.reverse_inj.mp reversed

theorem seed_name_counter {outDir : String} {covCount otherCount : Nat}
    {round otherRound queuedPaths otherPaths : UInt32} (short : outDir.toList.length ≤ 200)
    (fits : covCount < 2 ^ 32) (otherFits : otherCount < 2 ^ 32)
    (same : seedName outDir covCount round queuedPaths =
      seedName outDir otherCount otherRound otherPaths) :
    queuedPaths = otherPaths := by
  have chars := congrArg String.toList same
  rw [seed_name_chars _ _ _ _ short fits, seed_name_chars _ _ _ _ short otherFits] at chars
  have field := last_field_eq chars (padded_digits 6 _) (padded_digits 6 _)
  have value := congrArg (Nat.ofDigitChars 10 · 0) field
  rw [padded_value, padded_value] at value
  exact UInt32.toNat_inj.mp value

theorem output_seed_path_short : outputSeedPath.toList.length ≤ 200 := by decide

theorem coverage_fits (traceBits : Memory) : corpusGetCoverage traceBits < 2 ^ 32 := by
  rw [corpusGetCoverage, count_bytes_eq]
  exact Nat.lt_of_le_of_lt (Nat.count_le _) (by decide)

theorem seed_name_ne_init (covCount : Nat) (round queuedPaths : UInt32) (fits : covCount < 2 ^ 32) :
    seedName outputSeedPath covCount round queuedPaths ≠ initCorpusName := by
  intro same
  have chars := congrArg (fun name => name.toList[16]?) same
  have front : namePrefix outputSeedPath covCount round =
      (outputSeedPath ++ "/id_").toList ++
        (padded 8 covCount ++ "_" ++ padded 16 round.toNat).toList := by
    simp only [namePrefix, String.toList_append, List.append_assoc]
  have letter : (seedName outputSeedPath covCount round queuedPaths).toList[16]? = some 'd' := by
    rw [seed_name_chars _ _ _ _ output_seed_path_short fits, front, List.append_assoc,
      List.getElem?_append_left (by decide)]
    decide
  have other : initCorpusName.toList[16]? = some 'n' := by decide
  rw [letter, other] at chars
  cases chars

theorem keep_run_path {outDir : String} {state : CoverageState} {run : FinishedRun}
    {path : String} (kept : (keepRun outDir state run).2 = some path) :
    path = seedName outDir (corpusGetCoverage run.traceBits) run.totalExecTimes.toUInt32
      state.queuedPaths := by
  unfold keepRun saveIfInteresting at kept
  dsimp only at kept
  split_ifs at kept
  all_goals exact (Option.some.inj kept).symm

def NamedBelow (bound : Nat) (name : String) : Prop :=
  name = initCorpusName ∨ ∃ covCount round queuedPaths, covCount < 2 ^ 32 ∧
    queuedPaths.toNat < bound ∧ name = seedName outputSeedPath covCount round queuedPaths

theorem NamedBelow.mono {small large : Nat} {name : String} (named : NamedBelow small name)
    (below : small ≤ large) : NamedBelow large name := by
  rcases named with first | ⟨covCount, round, queuedPaths, fits, counter, same⟩
  · exact .inl first
  · exact .inr ⟨covCount, round, queuedPaths, fits, Nat.lt_of_lt_of_le counter below, same⟩

/-- One file for the first seed and one for each kept run, and the counter of
queued paths is their number. -/
structure Numbered (fuzzer : FuzzerState) (kept : Nat) : Prop where
  files : fuzzer.seeds.length = 1 + kept
  counter : fuzzer.coverage.queuedPaths = UInt32.ofNat fuzzer.seeds.length

def fileNames (fuzzer : FuzzerState) : List String := fuzzer.seeds.map Prod.fst

/-- No two files have one name, and the names have used counters below the next. -/
structure Named (fuzzer : FuzzerState) : Prop where
  names : ∀ name ∈ fileNames fuzzer, NamedBelow fuzzer.seeds.length name
  different : (fileNames fuzzer).Nodup

theorem after_run_seeds (outDir : String) (fuzzer : FuzzerState) (messages : List Message)
    (run : FinishedRun) :
    (keepRun outDir fuzzer.coverage run).2 = none ∧
        (afterRun outDir fuzzer messages run).seeds = fuzzer.seeds ∨
      ∃ path, (keepRun outDir fuzzer.coverage run).2 = some path ∧
        (afterRun outDir fuzzer messages run).seeds =
          (path, saveSeqBufToFile2 run.pktRec) :: fuzzer.seeds := by
  unfold afterRun
  cases kept : (keepRun outDir fuzzer.coverage run).2 with
  | none => exact .inl ⟨rfl, rfl⟩
  | some path => exact .inr ⟨path, rfl, rfl⟩

theorem chain_numbered {fuzzer : FuzzerState} {kept : Nat} (chain : Chain fuzzer kept) :
    Numbered fuzzer kept := by
  induction chain with
  | first messages initCorpus => exact ⟨rfl, rfl⟩
  | @run fuzzer kept messages run earlier induction =>
      have counted : (afterRun outputSeedPath fuzzer messages run).coverage.queuedPaths =
          if (keepRun outputSeedPath fuzzer.coverage run).2.isSome
          then fuzzer.coverage.queuedPaths + 1 else fuzzer.coverage.queuedPaths :=
        keep_run_queued_paths outputSeedPath fuzzer.coverage run
      rcases after_run_seeds outputSeedPath fuzzer messages run with
        ⟨unkept, seeds⟩ | ⟨path, saved, seeds⟩
      · rw [unkept] at counted ⊢
        refine ⟨?_, ?_⟩
        · rw [seeds]
          exact induction.files
        · rw [seeds, counted]
          exact induction.counter
      · rw [saved] at counted ⊢
        refine ⟨?_, ?_⟩
        · rw [seeds, List.length_cons, induction.files]
          rfl
        · rw [seeds, counted, List.length_cons, UInt32.ofNat_add, ← induction.counter]
          rfl
  | restart messages listing earlier listed induction =>
      refine ⟨listed.length_eq.trans induction.files, ?_⟩
      rw [load_corpus_queued_paths]
      exact UInt32.zero_add _

theorem kept_path_fresh {fuzzer : FuzzerState} {kept : Nat} (numbered : Numbered fuzzer kept)
    (named : Named fuzzer) (few : fuzzer.seeds.length < 2 ^ 31) {run : FinishedRun}
    {path : String} (saved : (keepRun outputSeedPath fuzzer.coverage run).2 = some path) :
    path ∉ fileNames fuzzer := by
  intro present
  have built := keep_run_path saved
  have fits := coverage_fits run.traceBits
  rcases named.names path present with first | ⟨covCount, round, queuedPaths, below, counter, same⟩
  · exact seed_name_ne_init _ _ _ fits (built.symm.trans first)
  · have equal := seed_name_counter output_seed_path_short fits below (built.symm.trans same)
    rw [numbered.counter] at equal
    rw [← equal, UInt32.toNat_ofNat', Nat.mod_eq_of_lt (by omega)] at counter
    exact Nat.lt_irrefl _ counter

theorem chain_named {fuzzer : FuzzerState} {kept : Nat} (chain : Chain fuzzer kept)
    (few : fuzzer.seeds.length < 2 ^ 31) : Named fuzzer := by
  induction chain with
  | first messages initCorpus =>
      refine ⟨?_, List.nodup_singleton _⟩
      intro name member
      exact .inl (List.mem_singleton.mp member)
  | @run fuzzer kept messages run earlier induction =>
      have numbered := chain_numbered earlier
      rcases after_run_seeds outputSeedPath fuzzer messages run with
        ⟨unkept, seeds⟩ | ⟨path, saved, seeds⟩
      · rw [seeds] at few
        have named := induction few
        constructor
        · rw [fileNames, seeds]
          exact named.names
        · rw [fileNames, seeds]
          exact named.different
      · rw [seeds, List.length_cons] at few
        have named := induction (Nat.lt_of_succ_lt few)
        have fresh := kept_path_fresh numbered named (Nat.lt_of_succ_lt few) saved
        constructor
        · rw [fileNames, seeds, List.map_cons, List.length_cons]
          intro name member
          rcases List.mem_cons.mp member with rfl | older
          · refine .inr ⟨_, _, fuzzer.coverage.queuedPaths, coverage_fits run.traceBits, ?_,
              keep_run_path saved⟩
            rw [numbered.counter, UInt32.toNat_ofNat', Nat.mod_eq_of_lt (by omega)]
            exact Nat.lt_succ_self _
          · exact (named.names name older).mono (Nat.le_succ _)
        · rw [fileNames, seeds, List.map_cons]
          exact List.nodup_cons.mpr ⟨fresh, named.different⟩
  | restart messages listing earlier listed induction =>
      have named := induction (listed.length_eq ▸ few)
      have names := listed.map Prod.fst
      constructor
      · intro name member
        rw [listed.length_eq]
        exact named.names name (names.mem_iff.mp member)
      · exact names.nodup_iff.mpr named.different

/-- No seed file is ever overwritten: whatever run is kept next, its path is the
name of no file, and there is one file for the first seed and one for each run
that was kept. -/
theorem seed_files_never_overwritten (fuzzer : FuzzerState) (kept : Nat)
    (chain : Chain fuzzer kept) (few : fuzzer.seeds.length < 2 ^ 31) :
    (∀ run path, (keepRun outputSeedPath fuzzer.coverage run).2 = some path →
      path ∉ fileNames fuzzer) ∧
    (fileNames fuzzer).Nodup ∧ (fileNames fuzzer).length = 1 + kept := by
  have numbered := chain_numbered chain
  have named := chain_named chain few
  refine ⟨?_, named.different, ?_⟩
  · intro run path saved
    exact kept_path_fresh numbered named few saved
  · rw [fileNames, List.length_map]
    exact numbered.files

def hittingRun : FinishedRun :=
  ⟨false, .none, (addPktToSeqBuf Interceptor.emptyRecord
    ⟨0, 1, 0, 0, 7, 27, Vector.replicate 255 0⟩).2, 1, fun position => if position = 3 then 1 else 0⟩

theorem hitting_run_kept {state : CoverageState} (untouched : state.virginBits = fun _ => 0xff) :
    (keepRun outputSeedPath state hittingRun).2.isSome = true := by
  unfold keepRun
  rw [if_pos (by rfl), save_if_interesting_keeps, (has_new_bits_scanned _ _).newBits, untouched]
  exact ⟨3, by decide, by decide⟩

/-- The same run is kept in one campaign and again in the next, with the same coverage
and the same number; only the third field of its name is another one. -/
theorem restarted_campaign_counts : ∃ fuzzer, Chain fuzzer 2 ∧ (fileNames fuzzer).Nodup ∧
    (fileNames fuzzer).length = 1 + 2 := by
  have first := Chain.first [] hittingRun.pktRec
  have second := Chain.run [] hittingRun first
  rw [if_pos (hitting_run_kept (load_corpus_virgin _ _))] at second
  have third := Chain.restart [] _ second (List.Perm.refl _)
  have fourth := Chain.run [] hittingRun third
  rw [if_pos (hitting_run_kept (load_corpus_virgin _ _))] at fourth
  have few := (chain_numbered fourth).files
  have holds := seed_files_never_overwritten _ 2 fourth (by omega)
  exact ⟨_, fourth, holds.2⟩

end Blueman.SeedNames
