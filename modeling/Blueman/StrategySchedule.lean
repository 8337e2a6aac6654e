import Blueman.CampaignChart

/-!
# The strategies of a campaign

Which share of the packets a strategy selects, and which strategy is in force in
which run. The selector compares `rand()`, rounded to a float and divided, with a
float; a mixed campaign draws one of the other strategies before every 2000th run.
-/

namespace Blueman.StrategySchedule

open ByteMachine MutateStrategy PacketSelection FuzzRun RunOutcome Coverage Execution SeedQueue
open StartFuzzer Startup CampaignChart NearestFloat

set_option autoImplicit false

theorem spacing_below {value exponent : Nat} (small : value < 2 ^ (exponent + 1)) :
    spacing 24 value ≤ 2 ^ (exponent - 23) := by
  apply Nat.pow_le_pow_right (by decide)
  have binade : Nat.log2 value ≤ exponent := by
    by_cases zero : value = 0
    · rw [zero]
      exact Nat.zero_le _
    · exact Nat.le_of_lt_succ ((Nat.log2_lt zero).mpr small)
  omega

theorem drawn_close {drawn : Nat} (inRange : drawn < 2 ^ 31) : nearest 24 drawn 1 ≤ drawn + 64 := by
  have close := (@nearest_close 24 drawn 1 Nat.one_pos).2
  have small : spacing 24 drawn ≤ 128 := @spacing_below drawn 30 inRange
  rw [Nat.one_mul, Nat.one_mul, Nat.div_one] at close
  omega

/-- The draws that are rounded below a float are those below a number that is at
most 64 less; the greatest draws are rounded to one. -/
theorem draws_below {prob : Nat} (float : spacing 24 prob ∣ prob)
    (unit : prob ≤ 2 ^ 31) :
    ∃ threshold, threshold ≤ prob ∧ prob ≤ threshold + 64 ∧ threshold < 2 ^ 31 ∧
      ∀ drawn, nearest 24 drawn 1 < prob ↔ drawn < threshold := by
  have mono (left right : Nat) (order : left ≤ right) : nearest 24 left 1 ≤ nearest 24 right 1 :=
    nearest_mono Nat.one_pos order
  have reached : prob ≤ nearest 24 prob 1 := Nat.le_of_eq (nearest_of_multiple float).symm
  obtain ⟨threshold, bounded, below⟩ := threshold_of_mono mono reached
  have inRange : threshold < 2 ^ 31 := by
    by_contra all
    have last : nearest 24 (2 ^ 31 - 1) 1 = 2 ^ 31 := by decide
    have selected := (below (2 ^ 31 - 1)).mpr (by omega)
    rw [last] at selected
    exact Nat.not_lt_of_le unit selected
  refine ⟨threshold, bounded, ?_, inRange, below⟩
  have reaches := Nat.le_of_not_lt (mt (below threshold).mp (Nat.lt_irrefl threshold))
  exact Nat.le_trans reaches (drawn_close inRange)

section

variable {percent : Nat} (share : percent ≤ 100)

include share

theorem percent_quotient : percent * 2 ^ 31 / 100 < 2 ^ (31 + 1) := by omega

theorem percent_float_le : nearest 24 (percent * 2 ^ 31) 100 ≤ 2 ^ 31 := by
  apply nearest_le (by decide)
  · exact Nat.mul_le_mul_right _ share
  · apply spacing_dvd_pow
    by_cases zero : percent * 2 ^ 31 / 100 = 0
    · rw [zero]
      exact Nat.zero_le _
    · exact Nat.le_of_lt_succ ((Nat.log2_lt zero).mpr (percent_quotient share))

theorem percent_float_close :
    percent * 2 ^ 31 ≤ 100 * nearest 24 (percent * 2 ^ 31) 100 + 12800 ∧
      100 * nearest 24 (percent * 2 ^ 31) 100 ≤ percent * 2 ^ 31 + 12800 := by
  have close := @nearest_close 24 (percent * 2 ^ 31) 100 (by decide)
  have small : spacing 24 (percent * 2 ^ 31 / 100) ≤ 256 :=
    spacing_below (percent_quotient share)
  omega

theorem percent_threshold : ∃ threshold, threshold < 2 ^ 31 ∧
    100 * threshold ≤ percent * 2 ^ 31 + 12800 ∧ percent * 2 ^ 31 ≤ 100 * threshold + 19200 ∧
    ∀ drawn, randFloat drawn < percentFloat percent ↔ drawn < threshold := by
  obtain ⟨threshold, least, most, inRange, below⟩ :=
    draws_below (nearest_multiple (by decide)) (percent_float_le share)
  have close := percent_float_close share
  refine ⟨threshold, inRange, by omega, by omega, fun drawn => ?_⟩
  rw [randFloat, percentFloat]
  exact below drawn

end

/-- The share in percent of a strategy at the packet `idx`; `first` is the first
result of `rand()` for it. -/
def sharePercent (mode : PktselMode) (entryIndex : UInt32) (idx : Nat) (first : Rand) : Nat :=
  match mode with
  | .fixedProb10 => 10
  | .fixedProb25 => 25
  | .fixedProb50 => 50
  | .fixedProb75 => 75
  | .fixedProb100 => 100
  | .selective25_75 => if idx ≥ entryIndex.toNat then 25 else 75
  | .selective75_25 => if idx ≥ entryIndex.toNat then 75 else 25
  | .randomProb => first.val % 91 + 10
  | .mixedProb => 50

theorem share_percent_le (mode : PktselMode) (entryIndex : UInt32) (idx : Nat) (first : Rand) :
    sharePercent mode entryIndex idx first ≤ 100 := by
  unfold sharePercent
  split
  all_goals first | omega | split_ifs <;> decide

theorem selects_configured (mode : PktselMode) (entryIndex : UInt32) (idx : Nat)
    (draws : Stream' Rand) :
    selects (configured mode entryIndex) idx draws =
      decide (randFloat (draws.get (selectorDraws (configured mode entryIndex) - 1)).val <
        percentFloat (sharePercent mode entryIndex idx draws.head)) := by
  have kept (mode : PktselMode) :
      entryIndex.toNat = (configured mode entryIndex).entryIndex.toNat := by
    have narrow := UInt32.toUInt32_toUInt64 entryIndex
    cases mode <;> exact (congrArg UInt32.toNat narrow).symm
  cases mode with
  | selective25_75 =>
      rw [sharePercent, apply_ite percentFloat, kept .selective25_75]
      rfl
  | selective75_25 =>
      rw [sharePercent, apply_ite percentFloat, kept .selective75_25]
      rfl
  | _ => rfl

/-- There is one threshold for every share, within a part in eleven million of it
and short of all draws, such that every strategy selects a packet, wherever it
stands in the run, exactly when the last draw for it is below the threshold of the
share that the strategy is named after. -/
theorem strategies_keep_shares : ∃ threshold : Nat → Nat,
    (∀ percent, percent ≤ 100 → threshold percent < 2 ^ 31 ∧
      100 * threshold percent ≤ percent * 2 ^ 31 + 12800 ∧
      percent * 2 ^ 31 ≤ 100 * threshold percent + 19200) ∧
    ∀ (mode : PktselMode) (entryIndex : UInt32) (idx : Nat) (draws : Stream' Rand),
      selects (configured mode entryIndex) idx draws = true ↔
        (draws.get (selectorDraws (configured mode entryIndex) - 1)).val <
          threshold (sharePercent mode entryIndex idx draws.head) := by
  have each (percent : Nat) : ∃ threshold, percent ≤ 100 → threshold < 2 ^ 31 ∧
      100 * threshold ≤ percent * 2 ^ 31 + 12800 ∧ percent * 2 ^ 31 ≤ 100 * threshold + 19200 ∧
      ∀ drawn, randFloat drawn < percentFloat percent ↔ drawn < threshold := by
    by_cases share : percent ≤ 100
    · obtain ⟨threshold, holds⟩ := percent_threshold share
      exact ⟨threshold, fun _ => holds⟩
    · exact ⟨0, fun within => absurd within share⟩
  choose threshold holds using each
  refine ⟨threshold, ?_, ?_⟩
  · intro percent share
    obtain ⟨inRange, least, most, -⟩ := holds percent share
    exact ⟨inRange, least, most⟩
  · intro mode entryIndex idx draws
    rw [selects_configured, decide_eq_true_iff]
    exact (holds _ (share_percent_le mode entryIndex idx draws.head)).2.2.2 _

/-- The mode in force in the last of the runs: that of the build, or in a mixed
campaign the one drawn before the last run so far whose number is a multiple of
2000. -/
def scheduledMode (mode : PktselMode) (turns : List TurnReading) : PktselMode :=
  if mode = .mixedProb ∧ 2000 ≤ turns.length then
    (turns[2000 * (turns.length / 2000) - 1]?).elim mode fun turn =>
      .ofNumber (turn.modeDraw.val % 8)
  else mode

theorem scheduled_mode_snoc (mode : PktselMode) (turns : List TurnReading) (turn : TurnReading) :
    scheduledMode mode (turns ++ [turn]) =
      if mode = .mixedProb ∧ (turns.length + 1) % 2000 = 0 then .ofNumber (turn.modeDraw.val % 8)
      else scheduledMode mode turns := by
  unfold scheduledMode
  rw [List.length_append, List.length_singleton]
  by_cases mixed : mode = .mixedProb
  · by_cases due : (turns.length + 1) % 2000 = 0
    · have here : 2000 * ((turns.length + 1) / 2000) - 1 = turns.length := by omega
      rw [if_pos ⟨mixed, by omega⟩, if_pos ⟨mixed, due⟩, here, List.getElem?_concat_length]
      rfl
    · have same : (turns.length + 1) / 2000 = turns.length / 2000 := by omega
      have count : 2000 ≤ turns.length + 1 ↔ 2000 ≤ turns.length := by omega
      rw [same, if_neg fun both : mode = .mixedProb ∧ (turns.length + 1) % 2000 = 0 => due both.2]
      simp only [count]
      split_ifs with drawn
      · rw [List.getElem?_append_left (by omega)]
      · rfl
  · rw [if_neg fun both => mixed both.1, if_neg fun both => mixed both.1,
      if_neg fun both => mixed both.1]

theorem drawn_mode (drawn : Nat) : PktselMode.ofNumber (drawn % 8) ≠ .mixedProb ∧
    modeNumber (.ofNumber (drawn % 8)) = drawn % 8 := by
  have all : ∀ number < 8, PktselMode.ofNumber number ≠ .mixedProb ∧
      modeNumber (.ofNumber number) = number := by decide
  exact all (drawn % 8) (Nat.mod_lt _ (by decide))

theorem setup_selects (config other : PktselConfig) (number : Nat) (entryIndex : UInt64)
    (idx : Nat) : shouldMutatePacket (selectionStrategySetup config number entryIndex) idx =
      shouldMutatePacket (selectionStrategySetup other number entryIndex) idx := by
  unfold shouldMutatePacket selectionProb selectionStrategySetup
  cases PktselMode.ofNumber number <;> rfl

section

variable {timer : UInt64} {canOpen : String → Bool} {outDir : String} {mode : PktselMode}
  {entryIndex : UInt32} {turns : List TurnReading} {state : Progress}

theorem timed_turn_globals {pktsel : Bool} {next : Progress} {turn : TurnReading}
    (taken : timedTurn timer canOpen pktsel outDir state turn = some next) :
    next.loop.totalExecTimes = state.loop.totalExecTimes + 1 ∧
      next.globals =
        switchMode pktsel state.globals (state.loop.totalExecTimes + 1) turn.modeDraw := by
  obtain ⟨-, ends⟩ := timed_turn_ends taken
  cases ends with
  | within => exact ⟨rfl, rfl⟩
  | next full fuzzed => exact ⟨(fuzz_turn_round_over fuzzed full).2.2, rfl⟩
  | exit => exact ⟨rfl, rfl⟩

/-- Where the strategy stands after some runs. -/
structure Scheduled (mode : PktselMode) (entryIndex : UInt32) (turns : List TurnReading)
    (state : Progress) : Prop where
  counted : state.loop.totalExecTimes = UInt64.ofNat turns.length
  entry : state.globals.maxDeltaIndex = entryIndex
  mixedMode : state.globals.mixedMode = true ↔ mode = .mixedProb
  selector : ∀ idx, shouldMutatePacket state.globals.config idx =
    shouldMutatePacket (configured (scheduledMode mode turns) entryIndex) idx

theorem due_iff {count : Nat} (few : count < 2 ^ 64) :
    UInt64.ofNat count % 2000 = 0 ↔ count % 2000 = 0 := by
  have divisor : (2000 : UInt64).toNat = 2000 := rfl
  rw [← UInt64.toNat_inj, UInt64.toNat_mod, UInt64.toNat_ofNat', Nat.mod_eq_of_lt few, divisor]
  rfl

theorem timed_turn_scheduled {next : Progress} {turn : TurnReading}
    (few : turns.length + 1 < 2 ^ 64)
    (taken : timedTurn timer canOpen true outDir state turn = some next)
    (scheduled : Scheduled mode entryIndex turns state) :
    Scheduled mode entryIndex (turns ++ [turn]) next := by
  obtain ⟨counted, globals⟩ := timed_turn_globals taken
  rw [scheduled.counted, ← UInt64.ofNat_one, ← UInt64.ofNat_add] at counted globals
  have due : (state.globals.mixedMode = true ∧ UInt64.ofNat (turns.length + 1) % 2000 = 0) ↔
      mode = .mixedProb ∧ (turns.length + 1) % 2000 = 0 := by
    rw [scheduled.mixedMode, due_iff few]
  unfold switchMode at globals
  simp only [due, true_and] at globals
  split_ifs at globals with switched
  · refine ⟨?_, ?_, ?_, ?_⟩
    · rw [counted, List.length_append, List.length_singleton]
    · rw [globals]
      exact scheduled.entry
    · rw [globals]
      exact scheduled.mixedMode
    · intro idx
      rw [globals, scheduled_mode_snoc, if_pos switched, configured,
        (drawn_mode turn.modeDraw.val).2, ← scheduled.entry]
      exact setup_selects _ _ _ _ idx
  · refine ⟨?_, ?_, ?_, ?_⟩
    · rw [counted, List.length_append, List.length_singleton]
    · rw [globals]
      exact scheduled.entry
    · rw [globals]
      exact scheduled.mixedMode
    · intro idx
      rw [globals, scheduled_mode_snoc, if_neg switched]
      exact scheduled.selector idx

theorem scheduled_run {rest : List TurnReading} {final : Progress}
    (few : turns.length + rest.length < 2 ^ 64)
    (run : exec (timedTurn timer canOpen true outDir) state rest = some final)
    (scheduled : Scheduled mode entryIndex turns state) :
    Scheduled mode entryIndex (turns ++ rest) final := by
  induction rest generalizing turns state with
  | nil =>
      cases run
      rw [List.append_nil]
      exact scheduled
  | cons turn rest induction =>
      obtain ⟨next, taken, run⟩ := exec_cons.mp run
      rw [List.length_cons] at few
      have after := timed_turn_scheduled (by omega) taken scheduled
      have ended := induction (by rw [List.length_append, List.length_singleton]; omega) run after
      rwa [List.append_assoc] at ended

end

theorem scheduled_not_mixed {mode : PktselMode} {turns : List TurnReading}
    (drawn : 2000 ≤ turns.length) : scheduledMode mode turns ≠ .mixedProb := by
  unfold scheduledMode
  split_ifs with mixed
  · rw [List.getElem?_eq_getElem (by omega)]
    exact (drawn_mode _).1
  · exact fun same => mixed ⟨same, drawn⟩

/-- In every run of a campaign whose strategy is in force at its start, the selector
decides as the scheduled mode would from the delta point of the first seed; a mixed
campaign is not mixed any more once it has drawn a mode. -/
theorem campaign_scheduled {mode : PktselMode} {main : MainLoop}
    (force : InForce mode main.globals) (now : UInt64) (instId : Option String)
    (files : LogFiles) (timer : UInt64) (canOpen : String → Bool) (outDir : String)
    (turns : List TurnReading) (few : turns.length < 2 ^ 64) {state : Progress}
    (run : exec (timedTurn timer canOpen true outDir) (startProgress main now instId files) turns =
      some state) :
    (∀ idx draws, selects state.globals.config idx draws =
      selects (configured (scheduledMode mode turns) main.globals.maxDeltaIndex) idx draws) ∧
    (2000 ≤ turns.length → scheduledMode mode turns ≠ .mixedProb) ∧
    state.globals.maxDeltaIndex = main.globals.maxDeltaIndex ∧
    state.globals.mixedMode = main.globals.mixedMode := by
  have start : Scheduled mode main.globals.maxDeltaIndex [] (startProgress main now instId files) := by
    refine ⟨rfl, rfl, force.mixedMode, fun idx => ?_⟩
    have unscheduled : scheduledMode mode [] = mode := if_neg fun both => by cases both.2
    rw [unscheduled]
    exact congrArg (shouldMutatePacket · idx) force.config
  have few : ([] : List TurnReading).length + turns.length < 2 ^ 64 := by simpa using few
  have scheduled := scheduled_run few run start
  rw [List.nil_append] at scheduled
  refine ⟨?_, scheduled_not_mixed, scheduled.entry, ?_⟩
  · intro idx draws
    rw [selects, selects, scheduled.selector idx]
  · rw [Bool.eq_iff_iff]
    exact scheduled.mixedMode.trans force.mixedMode.symm

def mixedMain : MainLoop :=
  ⟨SeedQueue.loadCorpusToQueue oneSeed emptyQueue, ⟨configured .mixedProb 7, true, 7⟩⟩

/-- A thousandth of a second after the start; a mode that is due would be the fourth. -/
def earlyTurn : TurnReading :=
  ⟨⟨.none, Interceptor.emptyRecord, oneEdge.traceBits⟩, 1000, drawnOf 3⟩

structure Early (state : Progress) : Prop where
  startTime : state.startTime = 0
  running : state.exited = false

theorem early_turn (state : Progress) (turn : TurnReading) (next : Progress)
    (same : turn = earlyTurn)
    (taken : timedTurn (makefileTimer 60) (fun _ => true) true "seed" state turn = some next)
    (early : Early state) : Early next := by
  obtain ⟨-, ends⟩ := timed_turn_ends taken
  cases ends with
  | within => exact ⟨early.startTime, early.running⟩
  | next => exact ⟨early.startTime, early.running⟩
  | exit full late =>
      rw [same, early.startTime] at late
      exact absurd late (by decide)

theorem early_turns_taken (count : Nat) : ∃ state,
    exec (timedTurn (makefileTimer 60) (fun _ => true) true "seed")
      (startProgress mixedMain 0 (some "field_MIXED_PROB") fun _ => none)
        (List.replicate count earlyTurn) = some state := by
  have queued : mixedMain.seeds.coverage.queue ≠ [] := List.cons_ne_nil _ _
  obtain ⟨front, state, isPrefix, run, ends⟩ := campaign_takes (makefileTimer 60)
    (fun _ => true) true "seed" queued 0 (some "field_MIXED_PROB") (fun _ => none)
    (List.replicate count earlyTurn)
  have same : ∀ turn ∈ front, turn = earlyTurn := fun turn member =>
    List.eq_of_mem_replicate (isPrefix.subset member)
  have early := exec_preserves_along early_turn run ((along_all_iff run).mpr same) ⟨rfl, rfl⟩
  cases ends with
  | inl all => exact ⟨state, all ▸ run⟩
  | inr exited =>
      rw [early.running] at exited
      cases exited

/-- The 2000th run of the mixed campaign is the first one with the mode that was drawn
before it. -/
theorem drawn_mode_scheduled : ∃ state,
    exec (timedTurn (makefileTimer 60) (fun _ => true) true "seed")
      (startProgress mixedMain 0 (some "field_MIXED_PROB") fun _ => none)
        (List.replicate 2000 earlyTurn) = some state ∧
    ∀ idx draws, selects state.globals.config idx draws =
      selects (configured .fixedProb75 7) idx draws := by
  have force : InForce .mixedProb mixedMain.globals :=
    ⟨rfl, iff_of_true rfl rfl, configured_selectable .mixedProb 7⟩
  obtain ⟨state, run⟩ := early_turns_taken 2000
  have count : (List.replicate 2000 earlyTurn).length = 2000 := List.length_replicate
  have scheduled := campaign_scheduled force 0 (some "field_MIXED_PROB") (fun _ => none)
    (makefileTimer 60) (fun _ => true) "seed" _ (by rw [count]; decide) run
  have drawn : scheduledMode .mixedProb (List.replicate 2000 earlyTurn) = .fixedProb75 := by
    rw [scheduledMode, if_pos ⟨rfl, Nat.le_of_eq count.symm⟩, count, List.getElem?_replicate]
    rfl
  rw [drawn] at scheduled
  exact ⟨state, run, scheduled.1⟩

end Blueman.StrategySchedule
