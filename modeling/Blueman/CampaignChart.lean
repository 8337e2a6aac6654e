import Blueman.CoverageTable
import Blueman.Library.NamedFiles
import Blueman.Startup

/-!
# The chart of a campaign

`start_fuzzer` from the head of its main loop to the timer, in a build with
statistics: the turns of `StartFuzzer` with the clock, the coverage, the strategy
of a mixed campaign and the log of `coverage_logger.c`, which is saved when the
time is up and read by `gen_csv.py`. JSON is taken for what it says: a saved log
is the list it prints.
-/

namespace Blueman.CampaignChart

open LittleEndian ByteScan FuzzRun MutateStrategy PacketSelection PacketRecord RunOutcome Coverage
open Execution SeedQueue StartFuzzer Startup CoverageTable NamedFiles StepFunction

set_option autoImplicit false

def maxEntries : Nat := 2000000

/-- `json_str` is what the array was when it was last printed. -/
structure CoverageLogger where
  coverageArray : List LogEntry
  outputFilePath : String
  entryCount : Nat
  jsonStr : Option (List LogEntry)

/-- The path has room for 255 bytes. -/
def initCoverageLogger (filename : Option String) : CoverageLogger where
  coverageArray := []
  outputFilePath :=
    (filename.filter fun name => name.utf8ByteSize < 256).getD "coverage_output.json"
  entryCount := 0
  jsonStr := none

def addCoverageEntry (time : UInt64) (coverage : Nat) (logger : CoverageLogger) :
    CoverageLogger :=
  if logger.entryCount ≥ maxEntries then logger
  else
    let grown := logger.coverageArray ++ [⟨some time.toNat, some coverage⟩]
    { logger with
      coverageArray := grown
      jsonStr := some grown
      entryCount := logger.entryCount + 1 }

/-- A saved log; one that was never printed is no JSON. -/
abbrev LogFiles := String → Option (Option (List LogEntry))

/-- Nothing is saved where the file cannot be opened. -/
def saveCoverageToFile (canOpen : String → Bool) (logger : CoverageLogger) (files : LogFiles) :
    LogFiles :=
  if canOpen logger.outputFilePath then put files logger.outputFilePath logger.jsonStr else files

/-- `json_to_csv` with the file it reads. -/
def jsonToCsvFile (files : LogFiles) (inPath : String) (maxTime : Nat) : Option Table :=
  (files inPath).bind fun text => text.bind fun data => jsonToCsv data maxTime

/-- The seconds that `make build_stat` puts in `TIMER` for a value of `SET_TIMER`. -/
def makefileTimer (setTimer : Nat) : UInt64 :=
  if setTimer ∈ [86400, 43200, 21600, 7200, 3600, 600, 60] then UInt64.ofNat setTimer
  else 2592000

/-- What a turn finds: the run, the clock behind it, and the `rand()` that draws a
mode if one is due. -/
structure TurnReading where
  report : RunReport
  time : UInt64
  modeDraw : Rand

structure Progress where
  loop : LoopState
  globals : Globals
  round : UInt64
  startTime : UInt64
  curTime : UInt64
  prevRoundTime : UInt64
  roundElapse : UInt64
  totalElapse : UInt64
  curCoverage : Nat
  totalCoverage : Nat
  maxTotalCoverage : Nat
  logger : CoverageLogger
  files : LogFiles
  exited : Bool

/-- The first round, at the time `now`. -/
def startProgress (main : MainLoop) (now : UInt64) (instId : Option String) (files : LogFiles) :
    Progress where
  loop := main.loop
  globals := main.globals
  round := 1
  startTime := now
  curTime := now
  prevRoundTime := now
  roundElapse := 0
  totalElapse := 0
  curCoverage := 0
  totalCoverage := 0
  maxTotalCoverage := 0
  logger := initCoverageLogger instId
  files := files
  exited := false

/-- Before every 2000th run a mixed campaign draws a mode. -/
def switchMode (pktsel : Bool) (globals : Globals) (totalExecTimes : UInt64) (drawn : Rand) :
    Globals :=
  if pktsel ∧ globals.mixedMode ∧ totalExecTimes % 2000 = 0 then
    { globals with
      config := selectionStrategySetup globals.config (drawn.val % 8)
        globals.maxDeltaIndex.toUInt64 }
  else globals

def measure (pktsel : Bool) (outDir : String) (state : Progress) (turn : TurnReading) : Progress :=
  let loop := afterFuzz outDir state.loop turn.report
  let totalCoverage := getTotalCoverage loop.seeds.coverage.virginBits
  { state with
    loop := loop
    globals := switchMode pktsel state.globals loop.totalExecTimes turn.modeDraw
    curCoverage := corpusGetCoverage turn.report.traceBits
    totalCoverage := totalCoverage
    maxTotalCoverage :=
      if totalCoverage > state.maxTotalCoverage then totalCoverage else state.maxTotalCoverage
    curTime := turn.time }

def closeRound (state : Progress) : Progress :=
  { state with
    roundElapse := state.curTime - state.prevRoundTime
    totalElapse := state.curTime - state.startTime
    logger := addCoverageEntry (state.curTime - state.startTime) state.maxTotalCoverage
      state.logger }

section

variable (timer : UInt64) (canOpen : String → Bool) (pktsel : Bool) (outDir : String)

/-- One turn of the innermost loop, and what follows the last one: the timer comes
before the next entry. -/
def timedTurn (state : Progress) (turn : TurnReading) : Option Progress :=
  if state.exited then none
  else (fuzzTurn outDir state.loop turn.report).map fun moved =>
    let measured := measure pktsel outDir state turn
    if measured.loop.i < timesPerRound then measured
    else
      let closed := closeRound measured
      if closed.totalElapse > timer * 1000000 then
        { closed with
          files := saveCoverageToFile canOpen closed.logger closed.files, exited := true }
      else { closed with loop := moved, round := closed.round + 1, prevRoundTime := closed.curTime }

end

/-- A run of these that did not crash has hit the position. -/
def Hit (turns : List TurnReading) (position : Nat) : Prop :=
  ∃ turn ∈ turns, turn.report.fault ≠ .crash ∧ turn.report.traceBits position ≠ 0

instance (turns : List TurnReading) : DecidablePred (Hit turns) := fun position =>
  inferInstanceAs (Decidable (∃ turn ∈ turns,
    turn.report.fault ≠ .crash ∧ turn.report.traceBits position ≠ 0))

def hitSoFar (turns : List TurnReading) : Nat := Nat.count (Hit turns) mapSize

theorem hit_snoc (turns : List TurnReading) (turn : TurnReading) (position : Nat) :
    Hit (turns ++ [turn]) position ↔ Hit turns position ∨
      turn.report.fault ≠ .crash ∧ turn.report.traceBits position ≠ 0 := by
  simp only [Hit, List.mem_append, List.mem_singleton, or_and_right, exists_or, exists_eq_left]

theorem hit_so_far_nil : hitSoFar [] = 0 := by
  apply Nat.count_of_forall_not
  intro position _ ⟨turn, member, _⟩
  cases member

theorem hit_so_far_mono {turns later : List TurnReading} (front : turns <+: later) :
    hitSoFar turns ≤ hitSoFar later := by
  apply Nat.count_mono_left
  intro position _ ⟨turn, member, hit⟩
  exact ⟨turn, front.subset member, hit⟩

/-- The virgin map has forgotten the positions that were hit, and these only. -/
def Remembers (turns : List TurnReading) (virginBits : Memory) : Prop :=
  ∀ position, position < mapSize → (virginBits position = 0xff ↔ ¬Hit turns position)

theorem remembered_coverage {turns : List TurnReading} {virginBits : Memory}
    (remembers : Remembers turns virginBits) : getTotalCoverage virginBits = hitSoFar turns := by
  rw [total_coverage_eq, hitSoFar]
  apply count_congr
  intro position inside
  rw [Ne, remembers position inside, not_not]

theorem whole_after (virgin trace : UInt8) :
    virgin &&& ~~~trace = 0xff ↔ virgin = 0xff ∧ trace = 0 := by
  have ones : (0xff : UInt8) = ~~~0 := rfl
  have together : virgin &&& ~~~trace = ~~~(~~~virgin ||| trace) := by
    rw [not_or_eq, UInt8.not_not]
  rw [together, ones, UInt8.not_inj, UInt8.or_eq_zero_iff, ← UInt8.not_inj, UInt8.not_not]

theorem after_fuzz_remembers (outDir : String) {turns : List TurnReading} {loop : LoopState}
    (remembers : Remembers turns loop.seeds.coverage.virginBits) (turn : TurnReading) :
    Remembers (turns ++ [turn])
      (afterFuzz outDir loop turn.report).seeds.coverage.virginBits := by
  intro position inside
  have kept : (afterFuzz outDir loop turn.report).seeds.coverage.virginBits =
      if turn.report.fault ≠ .crash
      then (hasNewBits turn.report.traceBits loop.seeds.coverage.virginBits).1
      else loop.seeds.coverage.virginBits := by
    apply (keep_run_virgin outDir loop.seeds.coverage _).trans
    simp [FinishedRun.counted]
  rw [kept, hit_snoc, not_or, ← remembers position inside]
  by_cases crashed : turn.report.fault = .crash
  · simp [crashed]
  · rw [if_pos crashed, has_new_bits_virgin _ _ _ inside, whole_after]
    simp [crashed]

theorem load_remembers (listing : List (String × SeedFile)) :
    Remembers [] (SeedQueue.loadCorpusToQueue listing emptyQueue).coverage.virginBits := by
  have untouched (seeds : LinkedQueue) :
      (SeedQueue.loadCorpusToQueue listing seeds).coverage.virginBits =
        seeds.coverage.virginBits := by
    induction listing generalizing seeds with
    | nil => rfl
    | cons seed rest induction => exact induction _
  intro position _
  rw [untouched]
  exact iff_of_true rfl fun ⟨turn, member, _⟩ => by cases member

def fullRounds (turns : List TurnReading) : Nat := turns.length / timesPerRound

def throughRound (turns : List TurnReading) (round : Nat) : List TurnReading :=
  turns.take (timesPerRound * (round + 1))

def timeAfter (now : UInt64) (turns : List TurnReading) : UInt64 :=
  (turns.getLast?.map TurnReading.time).getD now

/-- The microseconds from the start to the end of a round. -/
def elapsed (now : UInt64) (turns : List TurnReading) (round : Nat) : Nat :=
  (timeAfter now (throughRound turns round)).toNat - now.toNat

def roundEntry (now : UInt64) (turns : List TurnReading) (round : Nat) : LogEntry :=
  ⟨some (elapsed now turns round), some (hitSoFar (throughRound turns round))⟩

section

variable {turns : List TurnReading} {turn : TurnReading} {round : Nat}

theorem time_after_snoc (now : UInt64) : timeAfter now (turns ++ [turn]) = turn.time := by
  rw [timeAfter, List.getLast?_concat]
  rfl

theorem through_round_snoc (ended : round < fullRounds turns) :
    throughRound (turns ++ [turn]) round = throughRound turns round := by
  apply List.take_append_of_le_length
  simp only [fullRounds, timesPerRound] at ended ⊢
  omega

theorem elapsed_snoc (now : UInt64) (ended : round < fullRounds turns) :
    elapsed now (turns ++ [turn]) round = elapsed now turns round := by
  rw [elapsed, through_round_snoc ended]
  rfl

theorem round_entry_snoc (now : UInt64) (ended : round < fullRounds turns) :
    roundEntry now (turns ++ [turn]) round = roundEntry now turns round := by
  rw [roundEntry, elapsed_snoc now ended, through_round_snoc ended]
  rfl

theorem entries_snoc (now : UInt64) {count : Nat} (ended : count ≤ fullRounds turns) :
    (List.range count).map (roundEntry now (turns ++ [turn])) =
      (List.range count).map (roundEntry now turns) := by
  apply List.map_congr_left
  intro round member
  exact round_entry_snoc now (Nat.lt_of_lt_of_le (List.mem_range.mp member) ended)

theorem full_rounds_within (within : (turns.length + 1) % timesPerRound ≠ 0) :
    fullRounds (turns ++ [turn]) = fullRounds turns := by
  simp only [fullRounds, List.length_append, List.length_singleton, timesPerRound] at within ⊢
  omega

theorem full_rounds_closed (closed : (turns.length + 1) % timesPerRound = 0) :
    fullRounds (turns ++ [turn]) = fullRounds turns + 1 := by
  simp only [fullRounds, List.length_append, List.length_singleton, timesPerRound] at closed ⊢
  omega

theorem through_last_round (closed : (turns.length + 1) % timesPerRound = 0) :
    throughRound (turns ++ [turn]) (fullRounds turns) = turns ++ [turn] := by
  apply List.take_of_length_le
  simp only [fullRounds, List.length_append, List.length_singleton, timesPerRound] at closed ⊢
  omega

end

structure Logged (entry : Nat → LogEntry) (rounds : Nat) (logger : CoverageLogger) : Prop where
  log : logger.coverageArray = (List.range (min maxEntries rounds)).map entry
  entryCount : logger.entryCount = logger.coverageArray.length
  printed : logger.jsonStr = if rounds = 0 then none else some logger.coverageArray

theorem add_entry_path (time : UInt64) (coverage : Nat) (logger : CoverageLogger) :
    (addCoverageEntry time coverage logger).outputFilePath = logger.outputFilePath := by
  unfold addCoverageEntry
  split_ifs <;> rfl

theorem add_entry_logged {entry : Nat → LogEntry} {rounds : Nat} {logger : CoverageLogger}
    (logged : Logged entry rounds logger) {time : UInt64} {coverage : Nat}
    (next : entry rounds = ⟨some time.toNat, some coverage⟩) :
    Logged entry (rounds + 1) (addCoverageEntry time coverage logger) := by
  have count : logger.entryCount = min maxEntries rounds := by
    rw [logged.entryCount, logged.log, List.length_map, List.length_range]
  unfold addCoverageEntry
  rw [count]
  by_cases full : rounds ≥ maxEntries
  · have same : min maxEntries (rounds + 1) = min maxEntries rounds := by omega
    have some : rounds ≠ 0 := Nat.ne_of_gt (Nat.lt_of_lt_of_le (by decide) full)
    rw [if_pos (by omega)]
    refine ⟨by rw [logged.log, same], logged.entryCount, ?_⟩
    rw [logged.printed, if_neg some, if_neg (Nat.succ_ne_zero rounds)]
  · have all : min maxEntries rounds = rounds := by omega
    have more : min maxEntries (rounds + 1) = rounds + 1 := by omega
    rw [if_neg (by omega)]
    refine ⟨?_, ?_, (if_neg (Nat.succ_ne_zero rounds)).symm⟩
    · simp only [logged.log, all, more, List.range_succ, List.map_append, List.map_singleton, next]
    · simp only [List.length_append, List.length_singleton, logged.log, List.length_map,
        List.length_range]

theorem Logged.congr {entry other : Nat → LogEntry} {rounds : Nat} {logger : CoverageLogger}
    (logged : Logged entry rounds logger)
    (same : (List.range (min maxEntries rounds)).map other =
      (List.range (min maxEntries rounds)).map entry) : Logged other rounds logger :=
  ⟨logged.log.trans same.symm, logged.entryCount, logged.printed⟩

theorem fuzz_turn_found {outDir : String} {loop moved : LoopState} {report : RunReport}
    (taken : fuzzTurn outDir loop report = some moved) :
    ∃ entry, entryOf loop.seeds loop.queueCur = some entry := by
  cases found : entryOf loop.seeds loop.queueCur with
  | none =>
      rw [fuzzTurn, found] at taken
      cases taken
  | some entry => exact ⟨entry, rfl⟩

theorem fuzz_turn_in_round {outDir : String} {loop moved : LoopState} {report : RunReport}
    (taken : fuzzTurn outDir loop report = some moved) (more : loop.i + 1 < timesPerRound) :
    fuzzTurn outDir loop report = some (afterFuzz outDir loop report) := by
  obtain ⟨entry, found⟩ := fuzz_turn_found taken
  rw [fuzz_turn_eq outDir found]
  exact congrArg some (if_pos more)

theorem fuzz_turn_round_over {outDir : String} {loop moved : LoopState} {report : RunReport}
    (taken : fuzzTurn outDir loop report = some moved) (full : ¬loop.i + 1 < timesPerRound) :
    moved.i = 0 ∧ moved.seeds = (afterFuzz outDir loop report).seeds ∧
      moved.totalExecTimes = loop.totalExecTimes + 1 := by
  obtain ⟨entry, found⟩ := fuzz_turn_found taken
  rw [fuzz_turn_eq outDir found] at taken
  dsimp only at taken
  rw [if_neg full] at taken
  split_ifs at taken
  all_goals cases taken
  · exact ⟨rfl, rfl, rfl⟩
  · exact ⟨rfl, rfl, rfl⟩

section

variable {timer : UInt64} {canOpen : String → Bool} {pktsel : Bool} {outDir : String}

/-- The ways a turn ends: within a round, with the next one, or by the timer. -/
inductive TimedTurn (timer : UInt64) (canOpen : String → Bool) (pktsel : Bool) (outDir : String)
    (state : Progress) (turn : TurnReading) : Progress → Prop
  | within (more : state.loop.i + 1 < timesPerRound)
      (fuzzed : fuzzTurn outDir state.loop turn.report =
        some (afterFuzz outDir state.loop turn.report)) :
      TimedTurn timer canOpen pktsel outDir state turn (measure pktsel outDir state turn)
  | next {moved : LoopState} (full : ¬state.loop.i + 1 < timesPerRound)
      (fuzzed : fuzzTurn outDir state.loop turn.report = some moved)
      (inTime : turn.time - state.startTime ≤ timer * 1000000) :
      TimedTurn timer canOpen pktsel outDir state turn
        { closeRound (measure pktsel outDir state turn) with
          loop := moved, round := state.round + 1, prevRoundTime := turn.time }
  | exit (full : ¬state.loop.i + 1 < timesPerRound)
      (late : timer * 1000000 < turn.time - state.startTime) :
      TimedTurn timer canOpen pktsel outDir state turn
        { closeRound (measure pktsel outDir state turn) with
          files := saveCoverageToFile canOpen
            (closeRound (measure pktsel outDir state turn)).logger state.files
          exited := true }

theorem timed_turn_ends {state next : Progress} {turn : TurnReading}
    (taken : timedTurn timer canOpen pktsel outDir state turn = some next) :
    state.exited = false ∧ TimedTurn timer canOpen pktsel outDir state turn next := by
  obtain ⟨running, taken⟩ := Option.ite_none_left_eq_some.mp taken
  obtain ⟨moved, fuzzed, same⟩ := Option.map_eq_some_iff.mp taken
  refine ⟨Bool.eq_false_iff.mpr running, ?_⟩
  by_cases more : state.loop.i + 1 < timesPerRound
  · have within : (measure pktsel outDir state turn).loop.i < timesPerRound := more
    rw [if_pos within] at same
    exact same ▸ .within more (fuzz_turn_in_round fuzzed more)
  · have ended : ¬(measure pktsel outDir state turn).loop.i < timesPerRound := more
    rw [if_neg ended] at same
    dsimp only at same
    split_ifs at same with late
    · exact same ▸ .exit more late
    · exact same ▸ .next more fuzzed (UInt64.not_lt.mp late)

/-- Where a campaign stands after some turns that started at `now`. -/
structure Charted (timer : UInt64) (canOpen : String → Bool) (now : UInt64) (logPath : String)
    (files : LogFiles) (turns : List TurnReading) (state : Progress) : Prop where
  startTime : state.startTime = now
  curTime : state.curTime = timeAfter now turns
  remembers : Remembers turns state.loop.seeds.coverage.virginBits
  total : state.totalCoverage = hitSoFar turns
  maximum : state.maxTotalCoverage = hitSoFar turns
  logged : Logged (roundEntry now turns) (fullRounds turns) state.logger
  outputPath : state.logger.outputFilePath = logPath
  late : ∀ round, round < fullRounds turns → (timer * 1000000).toNat < elapsed now turns round →
    state.exited = true ∧ timesPerRound * (round + 1) = turns.length
  timeUp : state.exited = true →
    ∃ round, round < fullRounds turns ∧ (timer * 1000000).toNat < elapsed now turns round
  files : state.files =
    if state.exited ∧ canOpen logPath then put files logPath state.logger.jsonStr else files
  inRound : state.exited = false → state.loop.i = turns.length % timesPerRound

variable {now : UInt64} {logPath : String} {files : LogFiles} {turns : List TurnReading}
  {state : Progress}

theorem measure_total (state : Progress) (turn : TurnReading) :
    (measure pktsel outDir state turn).totalCoverage =
      getTotalCoverage (afterFuzz outDir state.loop turn.report).seeds.coverage.virginBits := by
  unfold measure
  dsimp only

theorem measure_maximum (state : Progress) (turn : TurnReading) :
    (measure pktsel outDir state turn).maxTotalCoverage =
      max state.maxTotalCoverage (measure pktsel outDir state turn).totalCoverage := by
  unfold measure
  dsimp only
  split_ifs with more
  · exact (Nat.max_eq_right (Nat.le_of_lt more)).symm
  · exact (Nat.max_eq_left (Nat.le_of_not_lt more)).symm

theorem measured_maximum (pktsel : Bool) (outDir : String)
    (charted : Charted timer canOpen now logPath files turns state) (turn : TurnReading) :
    (measure pktsel outDir state turn).totalCoverage = hitSoFar (turns ++ [turn]) ∧
      (measure pktsel outDir state turn).maxTotalCoverage = hitSoFar (turns ++ [turn]) := by
  have total : (measure pktsel outDir state turn).totalCoverage = hitSoFar (turns ++ [turn]) := by
    rw [measure_total]
    exact remembered_coverage (after_fuzz_remembers outDir charted.remembers turn)
  have grown := hit_so_far_mono (List.prefix_append turns [turn])
  refine ⟨total, ?_⟩
  rw [measure_maximum, total, charted.maximum]
  exact Nat.max_eq_right grown

theorem elapsed_closed (charted : Charted timer canOpen now logPath files turns state)
    {turn : TurnReading} (closed : (turns.length + 1) % timesPerRound = 0)
    (later : now ≤ turn.time) :
    (turn.time - state.startTime).toNat = elapsed now (turns ++ [turn]) (fullRounds turns) := by
  rw [elapsed, through_last_round closed, time_after_snoc, charted.startTime,
    UInt64.toNat_sub_of_le _ _ later]

theorem closed_logged (charted : Charted timer canOpen now logPath files turns state)
    {turn : TurnReading} (closed : (turns.length + 1) % timesPerRound = 0)
    (later : now ≤ turn.time) :
    Logged (roundEntry now (turns ++ [turn])) (fullRounds (turns ++ [turn]))
      (closeRound (measure pktsel outDir state turn)).logger := by
  rw [full_rounds_closed closed]
  apply add_entry_logged
  · exact charted.logged.congr (entries_snoc now (Nat.min_le_right _ _))
  · rw [roundEntry, through_last_round closed, ← elapsed_closed charted closed later]
    have maximum := (measured_maximum pktsel outDir charted turn).2
    rw [← maximum]
    rfl

theorem timed_turn_charted {next : Progress} {turn : TurnReading} (later : now ≤ turn.time)
    (taken : timedTurn timer canOpen pktsel outDir state turn = some next)
    (charted : Charted timer canOpen now logPath files turns state) :
    Charted timer canOpen now logPath files (turns ++ [turn]) next := by
  obtain ⟨running, ends⟩ := timed_turn_ends taken
  have place := charted.inRound running
  have remembers := after_fuzz_remembers outDir charted.remembers turn
  obtain ⟨total, maximum⟩ := measured_maximum pktsel outDir charted turn
  have unsaved := charted.files
  rw [if_neg (by simp [running])] at unsaved
  have startTime : (measure pktsel outDir state turn).startTime = now := charted.startTime
  have curTime : (measure pktsel outDir state turn).curTime = timeAfter now (turns ++ [turn]) :=
    (time_after_snoc now).symm
  have outputPath : (measure pktsel outDir state turn).logger.outputFilePath = logPath :=
    charted.outputPath
  have filesBefore : (measure pktsel outDir state turn).files = files := unsaved
  have runningBefore : (measure pktsel outDir state turn).exited = false := running
  have before (round : Nat) (ended : round < fullRounds turns) :
      elapsed now (turns ++ [turn]) round ≤ (timer * 1000000).toNat := by
    rw [elapsed_snoc now ended]
    by_contra beyond
    have gone := (charted.late round ended (Nat.lt_of_not_le beyond)).1
    rw [running] at gone
    cases gone
  cases ends with
  | within more _ =>
      have inside : (turns.length + 1) % timesPerRound ≠ 0 := by
        simp only [timesPerRound] at more place ⊢
        omega
      refine ⟨charted.startTime, (time_after_snoc now).symm, remembers, total, maximum, ?_,
        charted.outputPath, ?_, ?_, ?_, ?_⟩
      · rw [full_rounds_within inside]
        exact charted.logged.congr (entries_snoc now (Nat.min_le_right _ _))
      · intro round ended late
        rw [full_rounds_within inside] at ended
        exact absurd late (Nat.not_lt_of_le (before round ended))
      · intro gone
        exact absurd (running.symm.trans gone) Bool.false_ne_true
      · exact unsaved.trans (if_neg (by simp [measure, running])).symm
      · intro _
        change state.loop.i + 1 = _
        rw [place, List.length_append, List.length_singleton]
        simp only [timesPerRound] at more place ⊢
        omega
  | next full fuzzed inTime =>
      obtain ⟨fresh, seeds, -⟩ := fuzz_turn_round_over fuzzed full
      have closed : (turns.length + 1) % timesPerRound = 0 := by
        simp only [timesPerRound] at full place ⊢
        omega
      have last := elapsed_closed charted closed later
      have logged := @closed_logged _ _ pktsel outDir _ _ _ _ _ charted turn closed later
      rw [← seeds] at remembers
      generalize measure pktsel outDir state turn = measured at *
      refine ⟨startTime, curTime, remembers, total, maximum,
        logged, (add_entry_path _ _ _).trans outputPath, ?_, ?_, ?_, ?_⟩
      · intro round ended late
        rw [full_rounds_closed closed] at ended
        rcases Nat.lt_succ_iff_lt_or_eq.mp ended with earlier | rfl
        · exact absurd late (Nat.not_lt_of_le (before round earlier))
        · rw [← last] at late
          exact absurd inTime (UInt64.not_le.mpr late)
      · intro gone
        exact absurd (runningBefore.symm.trans gone) Bool.false_ne_true
      · exact filesBefore.trans (if_neg (by simp [closeRound, runningBefore])).symm
      · intro _
        rw [fresh, List.length_append, List.length_singleton, closed]
  | exit full late =>
      have closed : (turns.length + 1) % timesPerRound = 0 := by
        simp only [timesPerRound] at full place ⊢
        omega
      have last := elapsed_closed charted closed later
      have logged := @closed_logged _ _ pktsel outDir _ _ _ _ _ charted turn closed later
      have remembers : Remembers (turns ++ [turn])
        (measure pktsel outDir state turn).loop.seeds.coverage.virginBits := remembers
      generalize measure pktsel outDir state turn = measured at *
      have path : (closeRound measured).logger.outputFilePath = logPath :=
        (add_entry_path _ _ _).trans outputPath
      refine ⟨startTime, curTime, remembers, total, maximum, logged, path, ?_, ?_, ?_, ?_⟩
      · intro round ended beyond
        rw [full_rounds_closed closed] at ended
        rcases Nat.lt_succ_iff_lt_or_eq.mp ended with earlier | rfl
        · exact absurd beyond (Nat.not_lt_of_le (before round earlier))
        · refine ⟨rfl, ?_⟩
          rw [List.length_append, List.length_singleton]
          simp only [fullRounds, timesPerRound] at closed ⊢
          omega
      · intro _
        refine ⟨fullRounds turns, ?_, ?_⟩
        · rw [full_rounds_closed closed]
          exact Nat.lt_succ_self _
        · rw [← last]
          exact late
      · change saveCoverageToFile canOpen _ state.files = _
        rw [saveCoverageToFile, path, unsaved]
        simp
      · intro running
        cases running

theorem charted_run {rest : List TurnReading} {final : Progress}
    (later : ∀ turn ∈ rest, now ≤ turn.time)
    (run : exec (timedTurn timer canOpen pktsel outDir) state rest = some final)
    (charted : Charted timer canOpen now logPath files turns state) :
    Charted timer canOpen now logPath files (turns ++ rest) final := by
  induction rest generalizing turns state with
  | nil =>
      cases run
      rw [List.append_nil]
      exact charted
  | cons turn rest induction =>
      obtain ⟨next, taken, run⟩ := exec_cons.mp run
      have after := timed_turn_charted (later turn List.mem_cons_self) taken charted
      have ended := induction (fun turn member => later turn (List.mem_cons_of_mem _ member)) run
        after
      rwa [List.append_assoc] at ended

theorem start_charted {main : MainLoop} (instId : Option String)
    (fresh : Remembers [] main.seeds.coverage.virginBits) :
    Charted timer canOpen now (initCoverageLogger instId).outputFilePath files []
      (startProgress main now instId files) := by
  refine ⟨rfl, rfl, fresh, hit_so_far_nil.symm, hit_so_far_nil.symm, ⟨rfl, rfl, rfl⟩, rfl, ?_, ?_,
    ?_, fun _ => rfl⟩
  · intro round ended
    exact absurd ended (Nat.not_lt_zero round)
  · intro gone
    cases gone
  · exact (if_neg fun both => Bool.false_ne_true both.1).symm

end

/-- The logged rounds that were over by second `t`. -/
def roundsBy (now : UInt64) (turns : List TurnReading) (t : Nat) : Nat :=
  Nat.count (fun round => elapsed now turns round / 1000000 ≤ t)
    (min maxEntries (fullRounds turns))

section

variable {now : UInt64} {turns : List TurnReading}

theorem time_after_from (now : UInt64) (turns : List TurnReading) :
    timeAfter now turns = now ∨ ∃ turn ∈ turns, timeAfter now turns = turn.time := by
  rcases List.eq_nil_or_concat turns with rfl | ⟨front, turn, rfl⟩
  · exact .inl rfl
  · rw [List.concat_eq_append, time_after_snoc]
    exact .inr ⟨turn, by simp, rfl⟩

theorem time_after_mono {front rest : List TurnReading}
    (clock : (now :: (front ++ rest).map TurnReading.time).Pairwise (· ≤ ·)) :
    timeAfter now front ≤ timeAfter now (front ++ rest) := by
  obtain ⟨fromStart, clock⟩ := List.pairwise_cons.mp clock
  rw [List.map_append, List.pairwise_append] at clock
  rcases List.eq_nil_or_concat rest with rfl | ⟨init, last, rfl⟩
  · rw [List.append_nil]
    exact UInt64.le_refl _
  · rw [List.concat_eq_append, ← List.append_assoc, time_after_snoc]
    rcases time_after_from now front with same | ⟨turn, member, same⟩
    · rw [same]
      exact fromStart last.time (by simp)
    · rw [same]
      exact clock.2.2 turn.time (List.mem_map_of_mem member) last.time (by simp)

theorem elapsed_mono (clock : (now :: turns.map TurnReading.time).Pairwise (· ≤ ·))
    {left right : Nat} (less : left < right) :
    elapsed now turns left ≤ elapsed now turns right := by
  have shorter : timesPerRound * (left + 1) ≤ timesPerRound * (right + 1) :=
    Nat.mul_le_mul_left _ (Nat.succ_le_succ (Nat.le_of_lt less))
  obtain ⟨rest, grown⟩ := List.take_prefix_take_left shorter (l := turns)
  have front := (List.take_sublist (timesPerRound * (right + 1)) turns).map TurnReading.time
  have clockThere := clock.sublist (front.cons_cons now)
  unfold elapsed throughRound
  rw [← grown] at clockThere ⊢
  exact Nat.sub_le_sub_right (time_after_mono clockThere) _

/-- The coverage of the log by second `t`. -/
theorem logged_coverage (clock : (now :: turns.map TurnReading.time).Pairwise (· ≤ ·))
    {logger : CoverageLogger} (logged : Logged (roundEntry now turns) (fullRounds turns) logger)
    (t : Nat) : coverageAt logger.coverageArray t =
      hitSoFar (turns.take (timesPerRound * roundsBy now turns t)) := by
  have nothing : hitSoFar (turns.take (timesPerRound * 0)) = 0 := hit_so_far_nil
  have totals (round : Nat) : (roundEntry now turns round).covered =
      hitSoFar (turns.take (timesPerRound * (round + 1))) := Option.getD_some
  have ordered (left right : Nat) (less : left < right) :
      (roundEntry now turns left).timeSec ≤ (roundEntry now turns right).timeSec :=
    Nat.div_le_div_right (elapsed_mono clock less)
  have sampled := @sampled_at_range _ LogEntry.timeSec _ LogEntry.covered
    (fun rounds => hitSoFar (turns.take (timesPerRound * rounds))) (roundEntry now turns)
    (min maxEntries (fullRounds turns)) t (fun round _ => totals round)
    fun left right less _ => ordered left right less
  rw [nothing] at sampled
  rw [coverageAt, logged.log]
  exact sampled

theorem logged_ordered (clock : (now :: turns.map TurnReading.time).Pairwise (· ≤ ·))
    {logger : CoverageLogger} (logged : Logged (roundEntry now turns) (fullRounds turns) logger) :
    logger.coverageArray.Pairwise fun left right => left.timeUs ≤ right.timeUs := by
  rw [logged.log, List.pairwise_map]
  exact List.pairwise_lt_range.imp fun less => elapsed_mono clock less

theorem values_grow {value : Nat → Nat}
    (grows : ∀ early late, early ≤ late → value early ≤ value late) (count : Nat) :
    (((List.range count).map fun t => (t, value t)).map Prod.snd).Pairwise (· ≤ ·) := by
  rw [List.map_map, List.pairwise_map]
  exact List.pairwise_lt_range.imp fun less => grows _ _ (Nat.le_of_lt less)

theorem logged_rows (clock : (now :: turns.map TurnReading.time).Pairwise (· ≤ ·))
    {logger : CoverageLogger} (logged : Logged (roundEntry now turns) (fullRounds turns) logger)
    (maxTime : Nat) : ∃ table, jsonToCsv logger.coverageArray maxTime = some table ∧
      table.rows = (List.range (maxTime + 1)).map
        (fun t => (t, hitSoFar (turns.take (timesPerRound * roundsBy now turns t)))) ∧
      (table.rows.map Prod.snd).Pairwise (· ≤ ·) := by
  refine ⟨_, table_rows maxTime (logged_ordered clock logged), ?_, ?_⟩
  · simp only [logged_coverage clock logged]
  · apply values_grow
    intro early late order
    rw [logged_coverage clock logged, logged_coverage clock logged]
    have more : roundsBy now turns early ≤ roundsBy now turns late :=
      Nat.count_mono_left fun round _ ended => Nat.le_trans ended order
    exact hit_so_far_mono (List.take_prefix_take_left (Nat.mul_le_mul_left _ more))

end

/-- The microseconds after which a campaign ends. -/
def timeLimit (setTimer : Nat) : Nat := (makefileTimer setTimer).toNat * 1000000

theorem makefile_timer_limit (setTimer : Nat) :
    (makefileTimer setTimer * 1000000).toNat = timeLimit setTimer := by
  have bounded : (makefileTimer setTimer).toNat ≤ 2592000 := by
    unfold makefileTimer
    split_ifs with listed
    · have all : ∀ seconds ∈ [86400, 43200, 21600, 7200, 3600, 600, 60], seconds ≤ 86400 := by
        decide
      have small := all setTimer listed
      rw [UInt64.toNat_ofNat']
      omega
    · exact Nat.le_refl _
  have million : (1000000 : UInt64).toNat = 1000000 := rfl
  rw [timeLimit, UInt64.toNat_mul, million, Nat.mod_eq_of_lt]
  omega

theorem started_remembers {strategy : Option PktselMode} {attackerStatus : WaitStatus}
    {messages : List Message} {directory : List (String × SeedFile)}
    {actions : List InitAction} {main : MainLoop}
    (started : Started strategy attackerStatus messages directory actions main) :
    Remembers [] main.seeds.coverage.virginBits := by
  cases started with
  | loaded _ entered =>
      obtain ⟨-, same⟩ := Option.ite_none_right_eq_some.mp entered
      cases same
      exact load_remembers directory
  | collected _ _ entered =>
      obtain ⟨-, same⟩ := Option.ite_none_right_eq_some.mp entered
      cases same
      exact load_remembers _

def AtEntry (state : Progress) : Prop := state.exited = false → OnEntry state.loop

theorem timed_turn_at_entry (timer : UInt64) (canOpen : String → Bool) (pktsel : Bool)
    (outDir : String) : Preserves (timedTurn timer canOpen pktsel outDir) AtEntry := by
  intro state turn next taken holds running
  obtain ⟨before, ends⟩ := timed_turn_ends taken
  cases ends with
  | within more fuzzed => exact fuzz_turn_on_entry outDir _ _ _ fuzzed (holds before)
  | next full fuzzed _ => exact fuzz_turn_on_entry outDir _ _ _ fuzzed (holds before)
  | exit full late => cases running

theorem at_entry_goes_on {timer : UInt64} {canOpen : String → Bool} {pktsel : Bool}
    {outDir : String} {state : Progress} (holds : OnEntry state.loop)
    (running : state.exited = false) (turn : TurnReading) :
    (timedTurn timer canOpen pktsel outDir state turn).isSome = true := by
  obtain ⟨index, inside, current⟩ := holds.current
  obtain ⟨entry, found⟩ := entry_of_inside inside
  rw [timedTurn, if_neg (by simp [running]), Option.isSome_map,
    fuzz_turn_eq outDir (current ▸ found)]
  rfl

theorem queued_on_entry {main : MainLoop} (queued : main.seeds.coverage.queue ≠ []) :
    OnEntry main.loop :=
  enter_pass_on_entry fun zero => queued (List.length_eq_zero_iff.mp zero)

/-- A campaign, from any start, with any runs and a clock that does not go back: it
ends with the first round that is over too late, and goes on until then; the table
made of its log, which is saved at the end, gives for every second the positions of
the map hit by the runs of the rounds logged so far. -/
theorem campaign_charted (setTimer : Nat) (canOpen : String → Bool)
    {strategy : Option PktselMode} {attackerStatus : WaitStatus} {messages : List Message}
    {directory : List (String × SeedFile)} {actions : List InitAction} {main : MainLoop}
    (started : Started strategy attackerStatus messages directory actions main)
    (queued : main.seeds.coverage.queue ≠ []) (now : UInt64) (instId : Option String)
    (files : LogFiles) (outDir : String) (turns : List TurnReading)
    (clock : (now :: turns.map TurnReading.time).Pairwise (· ≤ ·)) {state : Progress}
    (run : exec (timedTurn (makefileTimer setTimer) canOpen strategy.isSome outDir)
      (startProgress main now instId files) turns = some state) :
    state.totalCoverage = hitSoFar turns ∧ state.maxTotalCoverage = hitSoFar turns ∧
    (∀ maxTime, ∃ table, jsonToCsv state.logger.coverageArray maxTime = some table ∧
      table.rows = (List.range (maxTime + 1)).map
        (fun t => (t, hitSoFar (turns.take (timesPerRound * roundsBy now turns t)))) ∧
      (table.rows.map Prod.snd).Pairwise (· ≤ ·)) ∧
    (state.exited = true ↔
      ∃ round, round < fullRounds turns ∧ timeLimit setTimer < elapsed now turns round) ∧
    (∀ round, round < fullRounds turns → timeLimit setTimer < elapsed now turns round →
      timesPerRound * (round + 1) = turns.length) ∧
    (state.exited = true → canOpen (initCoverageLogger instId).outputFilePath = true →
      ∀ maxTime, jsonToCsvFile state.files (initCoverageLogger instId).outputFilePath maxTime =
        jsonToCsv state.logger.coverageArray maxTime) ∧
    (state.exited = false → state.files = files ∧ ∀ turn,
      (timedTurn (makefileTimer setTimer) canOpen strategy.isSome outDir state turn).isSome =
        true) := by
  have later : ∀ turn ∈ turns, now ≤ turn.time := fun turn member =>
    (List.pairwise_cons.mp clock).1 turn.time (List.mem_map_of_mem member)
  have charted := charted_run later run (start_charted instId (started_remembers started))
  rw [List.nil_append] at charted
  have late := charted.late
  have timeUp := charted.timeUp
  rw [makefile_timer_limit] at late timeUp
  refine ⟨charted.total, charted.maximum, logged_rows clock charted.logged, ?_, ?_, ?_, ?_⟩
  · exact ⟨timeUp, fun ⟨round, ended, beyond⟩ => (late round ended beyond).1⟩
  · exact fun round ended beyond => (late round ended beyond).2
  · intro exited opens maxTime
    obtain ⟨round, ended, -⟩ := timeUp exited
    have printed := charted.logged.printed
    rw [if_neg (Nat.ne_of_gt (Nat.zero_lt_of_lt ended))] at printed
    rw [jsonToCsvFile, charted.files, if_pos ⟨exited, opens⟩, put, Function.update_self, printed]
    rfl
  · intro running
    have unsaved := charted.files
    rw [if_neg (by simp [running])] at unsaved
    have holds : AtEntry state := exec_preserves (timed_turn_at_entry _ _ _ _) run fun _ =>
      queued_on_entry queued
    exact ⟨unsaved, at_entry_goes_on (holds running) running⟩

theorem campaign_takes (timer : UInt64) (canOpen : String → Bool) (pktsel : Bool)
    (outDir : String) {main : MainLoop} (queued : main.seeds.coverage.queue ≠ []) (now : UInt64)
    (instId : Option String) (files : LogFiles) (turns : List TurnReading) :
    ∃ front state, front <+: turns ∧
      exec (timedTurn timer canOpen pktsel outDir) (startProgress main now instId files) front =
        some state ∧ (front = turns ∨ state.exited = true) := by
  have begun : AtEntry (startProgress main now instId files) := fun _ => queued_on_entry queued
  apply exec_until (timed_turn_at_entry timer canOpen pktsel outDir) _ begun
  intro state turn holds goesOn
  have running := Bool.eq_false_iff.mpr goesOn
  exact at_entry_goes_on (holds running) running turn

def minuteTurns : List TurnReading :=
  List.replicate 9 ⟨⟨.none, Interceptor.emptyRecord, oneEdge.traceBits⟩, 1000, drawnOf 0⟩ ++
    [⟨⟨.crash, Interceptor.emptyRecord, oneEdge.traceBits⟩, 61000000, drawnOf 0⟩]

def oneSeedMain : MainLoop :=
  ⟨SeedQueue.loadCorpusToQueue oneSeed emptyQueue, .start none⟩

theorem minute_charted : ∃ state,
    exec (timedTurn (makefileTimer 60) (fun _ => true) false "seed")
      (startProgress oneSeedMain 0 (some "random") fun _ => none) minuteTurns = some state ∧
    state.exited = true ∧ state.totalCoverage = hitSoFar minuteTurns := by
  have started : Started none (.signaled sigkill) [] oneSeed [] oneSeedMain :=
    .loaded (List.cons_ne_nil _ _) (one_seed_enters none)
  have queued : oneSeedMain.seeds.coverage.queue ≠ [] := List.cons_ne_nil _ _
  have clock : (0 :: minuteTurns.map TurnReading.time).Pairwise (· ≤ ·) := by decide
  obtain ⟨front, state, isPrefix, run, ends⟩ := campaign_takes (makefileTimer 60)
    (fun _ => true) false "seed" queued 0 (some "random") (fun _ => none) minuteTurns
  have charted := campaign_charted 60 (fun _ => true) started queued 0 (some "random")
    (fun _ => none) "seed" front (clock.sublist ((isPrefix.sublist.map _).cons_cons 0)) run
  have all : front = minuteTurns := by
    rcases ends with all | exited
    · exact all
    · obtain ⟨round, ended, -⟩ := charted.2.2.2.1.mp exited
      have count : minuteTurns.length = 10 := by decide
      simp only [fullRounds, timesPerRound] at ended
      exact isPrefix.eq_of_length_le (by omega)
  subst all
  exact ⟨state, run, charted.2.2.2.1.mpr ⟨0, by decide, by decide⟩, charted.1⟩

end Blueman.CampaignChart
