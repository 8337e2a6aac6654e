import Blueman.PacketSelection
import Blueman.SeedHistory
import Blueman.StartFuzzer

/-!
# The start of the fuzzer

`start_fuzzer` up to its main loop. With seeds in the directory nothing is run.
Without, a run collects the first one: its interceptor opens the seed file after
its loops, writes it, closes it and, in a build with a packet selection strategy,
sets that up, all in memory it shares with the parent, and the parent may kill it
in its clean-up before any of these.
-/

namespace Blueman.Startup

open LittleEndian BlePacket PacketSelection PacketRecord RunOutcome Coverage Interceptor FuzzRun
open Execution RunLockStep SeedCampaign SeedHistory SeedQueue StartFuzzer

set_option autoImplicit false

/-- The number of the enumerator, as `DEFAULT_PKTSEL_MODE` gives it. -/
def modeNumber : PktselMode → Nat
  | .fixedProb10 => 0
  | .fixedProb25 => 1
  | .fixedProb50 => 2
  | .fixedProb75 => 3
  | .fixedProb100 => 4
  | .selective25_75 => 5
  | .selective75_25 => 6
  | .randomProb => 7
  | .mixedProb => 8

/-- The globals of the strategy. -/
structure Globals where
  config : PktselConfig
  mixedMode : Bool
  maxDeltaIndex : UInt32

/-- `mutator_init`; in a build with a strategy the configuration is left zero. -/
def mutatorInit : Option PktselMode → PktselConfig
  | none => ⟨.fixedProb50, percentFloat 50, 0, 0, 0⟩
  | some _ => ⟨.fixedProb10, 0, 0, 0, 0⟩

def Globals.start (strategy : Option PktselMode) : Globals := ⟨mutatorInit strategy, false, 0⟩

inductive Stage
  | serving
  | opened
  | closed
  | mixed
  | configured
deriving DecidableEq

/-- The run, and what its interceptor has done behind its loops. -/
structure InitRun where
  run : RunState InitPlace
  stage : Stage
  initCorpus : Option SeedFile
  globals : Globals

inductive InitAction
  | run (action : Action)
  | openFile
  | write (size : Nat)
  | closeFile
  | setMixed
  | setUp
  | exit

def InitRun.start (strategy : Option PktselMode) (messages : List Message) : InitRun where
  run := .start (Mode.initCorpus.setup (.signaled sigkill)) messages
  stage := .serving
  initCorpus := none
  globals := .start strategy

/-- `max_delta_index` is set while a packet is processed. -/
def deltaIndexAfter (interceptor : InterceptorState InitPlace) (before : UInt32) : UInt32 :=
  match interceptor with
  | .answering _ (some (.loop vars)) => vars.maxDeltaIndex
  | .answering _ (some (.terminating maxDeltaIndex)) => maxDeltaIndex
  | _ => before

def InitRun.behindLoops (state : InitRun) (stage : Stage) : Bool :=
  (state.run.interceptor matches .finishing) && state.stage == stage

def lastStage : Option PktselMode → Stage
  | none => .closed
  | some _ => .configured

/-- A step of the run, or of its interceptor between its loops and its exit. The
file may be written in pieces. -/
def initStep (strategy : Option PktselMode) (attackerStatus : WaitStatus) (state : InitRun) :
    InitAction → Option InitRun
  | .run .finish => none
  | .run action =>
      (step (Mode.initCorpus.setup attackerStatus) state.run action).map fun run => { state with
        run := run
        globals := { state.globals with
          maxDeltaIndex := deltaIndexAfter run.interceptor state.globals.maxDeltaIndex } }
  | .openFile =>
      if state.behindLoops .serving then
        some { state with stage := .opened, initCorpus := some ⟨0, state.run.pktRec.image⟩ }
      else none
  | .write size =>
      if state.behindLoops .opened ∧ size ≤ (saveSeqBufToFile2 state.run.pktRec).size then
        some { state with initCorpus := some ⟨size, state.run.pktRec.image⟩ }
      else none
  | .closeFile =>
      if state.behindLoops .opened then
        some { state with stage := .closed, initCorpus := some (saveSeqBufToFile2 state.run.pktRec) }
      else none
  | .setMixed =>
      strategy.bind fun mode =>
        if state.behindLoops .closed then
          some { state with
            stage := .mixed
            globals := { state.globals with
              mixedMode := if mode = .mixedProb then true else state.globals.mixedMode } }
        else none
  | .setUp =>
      strategy.bind fun mode =>
        if state.behindLoops .mixed then
          some { state with
            stage := .configured
            globals := { state.globals with
              config := selectionStrategySetup state.globals.config (modeNumber mode)
                state.globals.maxDeltaIndex.toUInt64 } }
        else none
  | .exit =>
      if state.behindLoops (lastStage strategy) then
        (step (Mode.initCorpus.setup attackerStatus) state.run .finish).map fun run =>
          { state with run := run }
      else none

def pageSize : Nat := 4096

/-- The pages of a file that a mapping of a hundred packets shows. -/
def shownPages (file : SeedFile) : Nat :=
  (min file.size (mapSeed file).length + pageSize - 1) / pageSize * pageSize

/-- `add_to_queue` reads the count and the length of every packet. Beyond the last
page of the file the process dies. -/
def readable (file : SeedFile) : Bool :=
  0 < file.size &&
    ((mapSeed file).count == 0 ||
      packetOffset ((mapSeed file).count - 1) + lenOffset + 4 ≤ shownPages file)

structure MainLoop where
  seeds : LinkedQueue
  globals : Globals

def enterMainLoop (files : List (String × SeedFile)) (globals : Globals) : Option MainLoop :=
  if files.all fun file => readable file.2 then some ⟨loadCorpusToQueue files emptyQueue, globals⟩
  else none

def initCorpusFiles (initCorpus : Option SeedFile) : List (String × SeedFile) :=
  initCorpus.toList.map fun file => ("./output/seed//init_corpus", file)

/-- The main loop has been reached from what was in the seed directory, through
the steps of the run that collects a seed if there was nothing. -/
inductive Started (strategy : Option PktselMode) (attackerStatus : WaitStatus) (messages : List Message) :
    List (String × SeedFile) → List InitAction → MainLoop → Prop
  | loaded {directory : List (String × SeedFile)} {main : MainLoop} (listed : directory ≠ [])
      (entered : enterMainLoop directory (.start strategy) = some main) :
      Started strategy attackerStatus messages directory [] main
  | collected {actions : List InitAction} {state : InitRun} {fault : RunFault} {main : MainLoop}
      (run : exec (initStep strategy attackerStatus) (.start strategy messages) actions =
        some state)
      (gone : state.run.parent = .finished fault)
      (entered : enterMainLoop (initCorpusFiles state.initCorpus) state.globals = some main) :
      Started strategy attackerStatus messages [] actions main

inductive InitTurn (strategy : Option PktselMode) (attackerStatus : WaitStatus) (state : InitRun) :
    InitAction → InitRun → Prop
  | run {action : Action} {run : RunState InitPlace}
      (taken : step (Mode.initCorpus.setup attackerStatus) state.run action = some run)
      (inside : action ≠ .finish) :
      InitTurn strategy attackerStatus state (.run action) { state with
        run := run
        globals := { state.globals with
          maxDeltaIndex := deltaIndexAfter run.interceptor state.globals.maxDeltaIndex } }
  | openFile (finishes : state.run.interceptor = .finishing) (stage : state.stage = .serving) :
      InitTurn strategy attackerStatus state .openFile { state with
        stage := .opened, initCorpus := some ⟨0, state.run.pktRec.image⟩ }
  | write {size : Nat} (finishes : state.run.interceptor = .finishing)
      (stage : state.stage = .opened) :
      InitTurn strategy attackerStatus state (.write size) { state with
        initCorpus := some ⟨size, state.run.pktRec.image⟩ }
  | closeFile (finishes : state.run.interceptor = .finishing) (stage : state.stage = .opened) :
      InitTurn strategy attackerStatus state .closeFile { state with
        stage := .closed, initCorpus := some (saveSeqBufToFile2 state.run.pktRec) }
  | setMixed {mode : PktselMode} (chosen : strategy = some mode)
      (finishes : state.run.interceptor = .finishing) (stage : state.stage = .closed) :
      InitTurn strategy attackerStatus state .setMixed { state with
        stage := .mixed
        globals := { state.globals with
          mixedMode := if mode = .mixedProb then true else state.globals.mixedMode } }
  | setUp {mode : PktselMode} (chosen : strategy = some mode)
      (finishes : state.run.interceptor = .finishing) (stage : state.stage = .mixed) :
      InitTurn strategy attackerStatus state .setUp { state with
        stage := .configured
        globals := { state.globals with
          config := selectionStrategySetup state.globals.config (modeNumber mode)
            state.globals.maxDeltaIndex.toUInt64 } }
  | exit {run : RunState InitPlace} (stage : state.stage = lastStage strategy)
      (taken : step (Mode.initCorpus.setup attackerStatus) state.run .finish = some run) :
      InitTurn strategy attackerStatus state .exit { state with run := run }

theorem behind_loops {state : InitRun} {stage : Stage} (behind : state.behindLoops stage = true) :
    state.run.interceptor = .finishing ∧ state.stage = stage := by
  unfold InitRun.behindLoops at behind
  obtain ⟨finishes, here⟩ := Bool.and_eq_true_iff.mp behind
  refine ⟨?_, beq_iff_eq.mp here⟩
  split at finishes
  · assumption
  · cases finishes

section

variable {strategy : Option PktselMode} {attackerStatus : WaitStatus}

theorem init_step_turn {state next : InitRun} {action : InitAction}
    (taken : initStep strategy attackerStatus state action = some next) :
    InitTurn strategy attackerStatus state action next := by
  cases action with
  | run action =>
      cases action with
      | finish => cases taken
      | alarm => cases taken
      | _ =>
          obtain ⟨run, moved, rfl⟩ := Option.map_eq_some_iff.mp taken
          exact .run moved (by simp)
  | openFile =>
      obtain ⟨behind, same⟩ := Option.ite_none_right_eq_some.mp taken
      cases same
      exact .openFile (behind_loops behind).1 (behind_loops behind).2
  | write size =>
      obtain ⟨behind, same⟩ := Option.ite_none_right_eq_some.mp taken
      cases same
      exact .write (behind_loops behind.1).1 (behind_loops behind.1).2
  | closeFile =>
      obtain ⟨behind, same⟩ := Option.ite_none_right_eq_some.mp taken
      cases same
      exact .closeFile (behind_loops behind).1 (behind_loops behind).2
  | setMixed =>
      obtain ⟨mode, chosen, moved⟩ := Option.bind_eq_some_iff.mp taken
      obtain ⟨behind, same⟩ := Option.ite_none_right_eq_some.mp moved
      cases same
      exact .setMixed chosen (behind_loops behind).1 (behind_loops behind).2
  | setUp =>
      obtain ⟨mode, chosen, moved⟩ := Option.bind_eq_some_iff.mp taken
      obtain ⟨behind, same⟩ := Option.ite_none_right_eq_some.mp moved
      cases same
      exact .setUp chosen (behind_loops behind).1 (behind_loops behind).2
  | exit =>
      obtain ⟨behind, moved⟩ := Option.ite_none_right_eq_some.mp taken
      obtain ⟨run, finished, rfl⟩ := Option.map_eq_some_iff.mp moved
      exact .exit (behind_loops behind).2 finished

theorem init_react_answers (place : InitPlace) (pktRec : PktRecord) (pkt : BlePkt) (input : Input) :
    ∃ ack added next, initReact place pktRec pkt input = .answers ack added next := by
  unfold initReact
  split
  · dsimp only
    split_ifs <;> exact ⟨_, _, _, rfl⟩
  · exact ⟨_, _, _, rfl⟩

theorem ended_by_clean_up {run next : RunState InitPlace} {action : Action}
    (taken : step (Mode.initCorpus.setup attackerStatus) run action = some next)
    (inside : action ≠ .finish) (before : run.interceptor ≠ .ended) :
    next.interceptor = .ended ↔ cleanUpKills attackerStatus run action = true := by
  cases action with
  | process input =>
      simp only [step, process] at taken
      split at taken
      · rename_i place pkt held
        obtain ⟨ack, added, following, turn⟩ := init_react_answers place run.pktRec pkt input
        have answers : (Mode.initCorpus.setup attackerStatus).server.react place run.pktRec pkt
            input = .answers ack added following := turn
        rw [answers] at taken
        cases taken
        simp [cleanUpKills]
      · cases taken
  | cleanUp =>
      cases step_turn taken with
      | @recreate fault cleans failed =>
          have kills : recreatesQueue attackerStatus fault = true := failed
          simp [cleanUpKills, cleans, kills]
      | @keep fault cleans passed =>
          have spares : recreatesQueue attackerStatus fault = false := passed
          simp [cleanUpKills, cleans, spares, before]
  | finish => exact absurd rfl inside
  | alarm => cases taken
  | _ => cases step_turn taken <;> simp_all [cleanUpKills]

/-- What holds all along the run that collects a seed. -/
structure Staged (state : InitRun) : Prop where
  behind : state.stage ≠ .serving →
    state.run.interceptor = .finishing ∨ state.run.interceptor = .ended
  opened : state.initCorpus = none ↔ state.stage = .serving
  reaped : ∀ fault, state.run.parent = .finished fault → state.run.interceptor = .ended

theorem init_start_staged (strategy : Option PktselMode) (messages : List Message) :
    Staged (.start strategy messages) := by
  refine ⟨fun moved => absurd rfl moved, ⟨fun _ => rfl, fun _ => rfl⟩, ?_⟩
  intro fault finished
  cases finished

theorem init_step_staged : Preserves (initStep strategy attackerStatus) Staged := by
  intro state action next taken holds
  have opened := holds.opened
  cases init_step_turn taken with
  | run moved inside =>
      exact ⟨fun late => behind_stays moved (holds.behind late), opened,
        reaped_interceptor moved holds.reaped⟩
  | openFile finishes stage => exact ⟨fun _ => .inl finishes, by simp, holds.reaped⟩
  | write finishes stage => exact ⟨fun _ => .inl finishes, by simp [stage], holds.reaped⟩
  | closeFile finishes stage => exact ⟨fun _ => .inl finishes, by simp, holds.reaped⟩
  | setMixed _ finishes stage =>
      exact ⟨fun _ => .inl finishes, by simpa [stage] using opened, holds.reaped⟩
  | setUp _ finishes stage =>
      exact ⟨fun _ => .inl finishes, by simpa [stage] using opened, holds.reaped⟩
  | exit stage moved =>
      exact ⟨fun late => behind_stays moved (holds.behind late), opened,
        reaped_interceptor moved holds.reaped⟩

theorem init_run_staged {messages : List Message} {actions : List InitAction} {state : InitRun}
    (run : exec (initStep strategy attackerStatus) (.start strategy messages) actions =
      some state) : Staged state :=
  exec_preserves init_step_staged run (init_start_staged strategy messages)

def Stage.rank : Stage → Nat
  | .serving => 0
  | .opened => 1
  | .closed => 2
  | .mixed => 3
  | .configured => 4

/-- The clean-up does not end the interceptor before the stage that is due. -/
def Spares (attackerStatus : WaitStatus) (due : Stage) (state : InitRun) : InitAction → Prop
  | .run action => cleanUpKills attackerStatus state.run action = true →
      due.rank ≤ state.stage.rank
  | _ => True

def CameTo (due : Stage) (state : InitRun) : Prop :=
  state.run.interceptor = .ended → due.rank ≤ state.stage.rank

structure Missed (due : Stage) (state : InitRun) : Prop where
  gone : state.run.interceptor = .ended
  early : state.stage.rank < due.rank

theorem init_turn_ended {state next : InitRun} {action : InitAction}
    (turn : InitTurn strategy attackerStatus state action next)
    (gone : state.run.interceptor = .ended) : ∃ inRun, action = .run inRun := by
  cases turn with
  | run => exact ⟨_, rfl⟩
  | exit _ taken =>
      cases step_turn taken with
      | finish finishes => simp [gone] at finishes
  | openFile finishes _ => simp [gone] at finishes
  | write finishes _ => simp [gone] at finishes
  | closeFile finishes _ => simp [gone] at finishes
  | setMixed _ finishes _ => simp [gone] at finishes
  | setUp _ finishes _ => simp [gone] at finishes

theorem spared_step {due : Stage} (within : due.rank ≤ (lastStage strategy).rank)
    (state : InitRun) (action : InitAction) (next : InitRun)
    (spares : Spares attackerStatus due state action)
    (taken : initStep strategy attackerStatus state action = some next)
    (came : CameTo due state) : CameTo due next := by
  intro gone
  have turn := init_step_turn taken
  by_cases before : state.run.interceptor = .ended
  · obtain ⟨inRun, rfl⟩ := init_turn_ended turn before
    cases turn with
    | run => exact came before
  · cases turn with
    | run moved inside => exact spares ((ended_by_clean_up moved inside before).mp gone)
    | exit stage _ => exact stage ▸ within
    | _ => exact absurd gone before

theorem unspared_step {due : Stage} (state : InitRun) (action : InitAction) (next : InitRun)
    (spoils : ¬Spares attackerStatus due state action)
    (taken : initStep strategy attackerStatus state action = some next) : Missed due next := by
  cases init_step_turn taken with
  | run moved inside =>
      obtain ⟨kills, early⟩ := Classical.not_imp.mp spoils
      refine ⟨?_, Nat.lt_of_not_le early⟩
      by_cases before : state.run.interceptor = .ended
      · exact ended_stays moved before
      · exact (ended_by_clean_up moved inside before).mpr kills
  | _ => exact absurd trivial spoils

theorem missed_stays {due : Stage} :
    Preserves (initStep strategy attackerStatus) (Missed due) := by
  intro state action next taken missed
  have turn := init_step_turn taken
  obtain ⟨inRun, rfl⟩ := init_turn_ended turn missed.gone
  cases turn with
  | run moved _ => exact ⟨ended_stays moved missed.gone, missed.early⟩

theorem came_to_iff {messages : List Message} {actions : List InitAction} {state : InitRun}
    {due : Stage} {fault : RunFault} (within : due.rank ≤ (lastStage strategy).rank)
    (run : exec (initStep strategy attackerStatus) (.start strategy messages) actions =
      some state) (gone : state.run.parent = .finished fault) :
    due.rank ≤ state.stage.rank ↔ Along (initStep strategy attackerStatus)
      (Spares attackerStatus due) (.start strategy messages) actions := by
  have ended := (init_run_staged run).reaped fault gone
  constructor
  · intro came
    by_contra unspared
    have missed : Missed due state := by
      apply exec_not_along _ _ missed_stays run (init_start_staged strategy messages) unspared
      · intro state action next _ taken
        exact init_step_staged state action next taken
      · intro state action next spoils taken _
        exact unspared_step state action next spoils taken
    exact absurd came (Nat.not_le_of_lt missed.early)
  · intro spared
    have start : CameTo due (.start strategy messages) := by
      intro absent
      cases absent
    exact exec_preserves_along (spared_step within) run spared start ended

end

section

variable {mode : PktselMode} {attackerStatus : WaitStatus}

/-- What the set-up makes of the configuration that `mutator_init` leaves. -/
def configured (mode : PktselMode) (maxDeltaIndex : UInt32) : PktselConfig :=
  selectionStrategySetup (mutatorInit (some mode)) (modeNumber mode) maxDeltaIndex.toUInt64

structure Prepared (mode : PktselMode) (state : InitRun) : Prop extends Staged state where
  config : state.globals.config =
    if state.stage = .configured then configured mode state.globals.maxDeltaIndex
    else mutatorInit (some mode)
  mixedMode : state.globals.mixedMode =
    ((state.stage == .mixed || state.stage == .configured) && mode == .mixedProb)

theorem delta_index_behind {interceptor : InterceptorState InitPlace}
    (behind : interceptor = .finishing ∨ interceptor = .ended) (before : UInt32) :
    deltaIndexAfter interceptor before = before := by
  rcases behind with same | same <;> rw [same] <;> rfl

theorem init_step_prepared : Preserves (initStep (some mode) attackerStatus) (Prepared mode) := by
  intro state action next taken holds
  have staged := init_step_staged state action next taken holds.toStaged
  have config := holds.config
  have mixedMode := holds.mixedMode
  cases init_step_turn taken with
  | @run action run moved inside =>
      refine ⟨staged, ?_, mixedMode⟩
      by_cases last : state.stage = .configured
      · have behind := behind_stays moved (holds.behind (by simp [last]))
        simp only [delta_index_behind behind]
        exact config
      · rw [if_neg last] at config ⊢
        exact config
  | openFile _ stage =>
      rw [stage] at config mixedMode
      exact ⟨staged, config, mixedMode⟩
  | write _ stage => exact ⟨staged, config, mixedMode⟩
  | closeFile _ stage =>
      rw [stage] at config mixedMode
      exact ⟨staged, config, mixedMode⟩
  | @setMixed chosen same _ stage =>
      cases same
      rw [stage] at config mixedMode
      refine ⟨staged, config, ?_⟩
      simp only [mixedMode]
      cases mode <;> rfl
  | @setUp chosen same _ stage =>
      cases same
      rw [stage] at config mixedMode
      refine ⟨staged, ?_, mixedMode⟩
      simp only [config]
      rfl
  | exit stage moved => exact ⟨staged, config, mixedMode⟩

theorem init_run_prepared {messages : List Message} {actions : List InitAction} {state : InitRun}
    (run : exec (initStep (some mode) attackerStatus) (.start (some mode) messages) actions =
      some state) : Prepared mode state :=
  exec_preserves init_step_prepared run ⟨init_start_staged _ messages, rfl, rfl⟩

theorem configured_selectable (mode : PktselMode) (maxDeltaIndex : UInt32) (idx : Nat) :
    Selectable (configured mode maxDeltaIndex) idx := by
  cases mode with
  | selective25_75 | selective75_25 =>
      change 0 < if _ then percentFloat _ else percentFloat _
      split_ifs <;> decide
  | randomProb | mixedProb => trivial
  | _ =>
      change 0 < percentFloat _
      decide

theorem unconfigured_unselectable (mode : PktselMode) (idx : Nat) :
    ¬Selectable (mutatorInit (some mode)) idx := Nat.lt_irrefl 0

/-- The strategy of the build is in force. -/
structure InForce (mode : PktselMode) (globals : Globals) : Prop where
  config : globals.config = configured mode globals.maxDeltaIndex
  mixedMode : globals.mixedMode = true ↔ mode = .mixedProb
  offered : ∀ idx, Selectable globals.config idx

theorem not_in_force {globals : Globals} (left : globals.config = mutatorInit (some mode)) :
    ¬InForce mode globals := fun force =>
  unconfigured_unselectable mode 0 (left ▸ force.offered 0)

theorem Prepared.in_force_iff {state : InitRun} (holds : Prepared mode state) :
    InForce mode state.globals ↔ state.stage = .configured := by
  constructor
  · intro force
    by_contra early
    have config := holds.config
    rw [if_neg early] at config
    exact not_in_force config force
  · intro last
    have config := holds.config
    rw [if_pos last] at config
    refine ⟨config, ?_, ?_⟩
    · rw [holds.mixedMode, last]
      simp
    · intro idx
      rw [config]
      exact configured_selectable mode state.globals.maxDeltaIndex idx

theorem rank_configured (stage : Stage) : Stage.configured.rank ≤ stage.rank ↔
    stage = .configured := by
  cases stage <;> decide

/-- The strategy is in force at the first head of the main loop exactly when the
directory was empty and the run that collected a seed was not ended before its
interceptor had set the strategy up. -/
theorem strategy_in_force_iff {messages : List Message} {directory : List (String × SeedFile)}
    {actions : List InitAction} {main : MainLoop}
    (started : Started (some mode) attackerStatus messages directory actions main) :
    InForce mode main.globals ↔ directory = [] ∧
      Along (initStep (some mode) attackerStatus) (Spares attackerStatus .configured)
        (.start (some mode) messages) actions := by
  cases started with
  | loaded listed entered =>
      obtain ⟨-, same⟩ := Option.ite_none_right_eq_some.mp entered
      cases same
      exact iff_of_false (not_in_force rfl) fun both => listed both.1
  | collected run gone entered =>
      obtain ⟨-, same⟩ := Option.ite_none_right_eq_some.mp entered
      cases same
      have within : Stage.configured.rank ≤ (lastStage (some mode)).rank := Nat.le_refl _
      rw [(init_run_prepared run).in_force_iff, ← rank_configured, came_to_iff within run gone]
      exact ⟨fun spared => ⟨rfl, spared⟩, And.right⟩

end

instance decidableSpares (attackerStatus : WaitStatus) (due : Stage) (state : InitRun) :
    (action : InitAction) → Decidable (Spares attackerStatus due state action)
  | .run action => inferInstanceAs (Decidable (cleanUpKills attackerStatus state.run action = true →
      due.rank ≤ state.stage.rank))
  | .openFile | .write _ | .closeFile | .setMixed | .setUp | .exit => .isTrue trivial

def collectingActions : List InitAction :=
  (collectActionsOf (headedReception 37)).flatMap fun
    | .finish => [.openFile, .closeFile, .setMixed, .setUp, .exit]
    | action => [.run action]

def entersMainLoop (state : InitRun) : Bool :=
  (state.run.parent matches .finished .none) &&
    (enterMainLoop (initCorpusFiles state.initCorpus) state.globals).isSome

theorem collecting_enters :
    (exec (initStep (some .mixedProb) (.signaled sigkill)) (.start (some .mixedProb) [])
      collectingActions).any entersMainLoop = true := by
  decide +kernel

theorem collecting_spared :
    Along (initStep (some .mixedProb) (.signaled sigkill))
      (Spares (.signaled sigkill) .configured) (.start (some .mixedProb) []) collectingActions := by
  decide +kernel

theorem enters_main_loop {state : InitRun} (enters : entersMainLoop state = true) :
    ∃ main, state.run.parent = .finished .none ∧
      enterMainLoop (initCorpusFiles state.initCorpus) state.globals = some main := by
  obtain ⟨gone, entered⟩ := Bool.and_eq_true_iff.mp enters
  obtain ⟨main, same⟩ := Option.isSome_iff_exists.mp entered
  refine ⟨main, ?_, same⟩
  split at gone
  · assumption
  · cases gone

theorem collecting_started : ∃ main,
    Started (some .mixedProb) (.signaled sigkill) [] [] collectingActions main := by
  obtain ⟨state, run, enters⟩ := (Option.any_eq_true _ _).mp collecting_enters
  obtain ⟨main, gone, entered⟩ := enters_main_loop enters
  exact ⟨main, .collected run gone entered⟩

theorem collected_start_in_force : ∃ main,
    Started (some .mixedProb) (.signaled sigkill) [] [] collectingActions main ∧
      InForce .mixedProb main.globals := by
  obtain ⟨main, started⟩ := collecting_started
  exact ⟨main, started, (strategy_in_force_iff started).mpr ⟨rfl, collecting_spared⟩⟩

def oneSeed : List (String × SeedFile) :=
  [("./output/seed//init_corpus", saveSeqBufToFile2
    (addPktToSeqBuf emptyRecord ⟨0, 1, 0, 0x50655D7A, 7, 27, Vector.replicate 255 0⟩).2)]

theorem one_seed_enters (strategy : Option PktselMode) :
    enterMainLoop oneSeed (.start strategy) =
      some ⟨SeedQueue.loadCorpusToQueue oneSeed emptyQueue, .start strategy⟩ :=
  if_pos (by decide +kernel)

/-- With a seed in the directory the strategy is never set up. -/
theorem seeded_start_unconfigured : ¬∀ (mode : PktselMode) (attackerStatus : WaitStatus)
    (messages : List Message) (directory : List (String × SeedFile)) (actions : List InitAction)
    (main : MainLoop), Started (some mode) attackerStatus messages directory actions main →
      InForce mode main.globals := by
  intro always
  have started : Started (some .fixedProb50) (.signaled sigkill) [] oneSeed [] _ :=
    .loaded (List.cons_ne_nil _ _) (one_seed_enters _)
  exact not_in_force rfl (always _ _ _ _ _ _ started)

def MainLoop.loop (main : MainLoop) : LoopState :=
  enterPass ⟨main.seeds, .queue, .queue, 0, 0, [], 0⟩

/-- Whatever the runs leave, the name that the next turn reads is that of an entry
of the queue. -/
def ReadsEntries (main : MainLoop) : Prop :=
  ∀ (outDir : String) (reports : List RunReport) (state : LoopState),
    exec (fuzzTurn outDir) main.loop reports = some state →
      ∃ entry ∈ state.seeds.coverage.queue, entryOf state.seeds state.queueCur = some entry

theorem load_size (listing : List (String × SeedFile)) (seeds : LinkedQueue) :
    (SeedQueue.loadCorpusToQueue listing seeds).size = listing.length + seeds.size := by
  induction listing generalizing seeds with
  | nil => exact (Nat.zero_add _).symm
  | cons seed rest induction =>
      rw [List.length_cons, Nat.add_right_comm, Nat.add_assoc]
      exact induction _

theorem entry_of_mem {seeds : LinkedQueue} {node : ListNode} {entry : QueueEntry}
    (found : entryOf seeds node = some entry) : entry ∈ seeds.coverage.queue := by
  cases node with
  | queue => cases found
  | entry index => exact List.mem_reverse.mp (List.mem_of_getElem? found)

theorem reads_entries_iff {files : List (String × SeedFile)} {globals : Globals}
    {main : MainLoop} (entered : enterMainLoop files globals = some main) :
    ReadsEntries main ↔ files ≠ [] := by
  obtain ⟨-, same⟩ := Option.ite_none_right_eq_some.mp entered
  cases same
  constructor
  · rintro reads rfl
    obtain ⟨entry, member, -⟩ := reads "" [] _ rfl
    cases member
  · intro listed outDir reports state run
    have some : (SeedQueue.loadCorpusToQueue files emptyQueue).size ≠ 0 := by
      rw [load_size]
      exact fun zero => listed (List.length_eq_zero_iff.mp (Nat.eq_zero_of_add_eq_zero_right zero))
    obtain ⟨index, inside, current⟩ :=
      (exec_preserves (fuzz_turn_on_entry outDir) run (enter_pass_on_entry some)).current
    obtain ⟨entry, found⟩ := entry_of_inside inside
    rw [current]
    exact ⟨entry, entry_of_mem found, found⟩

theorem rank_opened (stage : Stage) : Stage.opened.rank ≤ stage.rank ↔ stage ≠ .serving := by
  cases stage <;> decide

theorem init_corpus_files_nil (initCorpus : Option SeedFile) :
    initCorpusFiles initCorpus ≠ [] ↔ initCorpus ≠ none := by
  cases initCorpus <;> simp [initCorpusFiles]

/-- The main loop reads the names of entries only, exactly when there were files
in the directory or the run that collected a seed was not ended before its
interceptor had opened the file. -/
theorem main_loop_reads_entries_iff {strategy : Option PktselMode} {attackerStatus : WaitStatus}
    {messages : List Message} {directory : List (String × SeedFile)} {actions : List InitAction}
    {main : MainLoop} (started : Started strategy attackerStatus messages directory actions main) :
    ReadsEntries main ↔ directory ≠ [] ∨
      Along (initStep strategy attackerStatus) (Spares attackerStatus .opened)
        (.start strategy messages) actions := by
  cases started with
  | loaded listed entered =>
      rw [reads_entries_iff entered]
      exact iff_of_true listed (.inl listed)
  | collected run gone entered =>
      have within : Stage.opened.rank ≤ (lastStage strategy).rank := by
        cases strategy <;> simp [lastStage, Stage.rank]
      rw [reads_entries_iff entered, init_corpus_files_nil, Ne, (init_run_staged run).opened, ← Ne,
        ← rank_opened, came_to_iff within run gone]
      exact ⟨.inr, fun either => either.resolve_left fun listed => listed rfl⟩

theorem collecting_opens :
    Along (initStep (some .mixedProb) (.signaled sigkill))
      (Spares (.signaled sigkill) .opened) (.start (some .mixedProb) []) collectingActions := by
  decide +kernel

/-- The entries are read after a seed was loaded, and after one was collected. -/
theorem both_starts_read_entries :
    (∃ main, Started none (.signaled sigkill) [] oneSeed [] main ∧ ReadsEntries main) ∧
      ∃ main, Started (some .mixedProb) (.signaled sigkill) [] [] collectingActions main ∧
        ReadsEntries main := by
  constructor
  · have started : Started none (.signaled sigkill) [] oneSeed [] _ :=
      .loaded (List.cons_ne_nil _ _) (one_seed_enters _)
    exact ⟨_, started, (main_loop_reads_entries_iff started).mpr (.inl (List.cons_ne_nil _ _))⟩
  · obtain ⟨main, started⟩ := collecting_started
    exact ⟨main, started, (main_loop_reads_entries_iff started).mpr (.inr collecting_opens)⟩

def crashingActions : List InitAction :=
  [.run (.die (.signaled 11)), .run .waitForTarget, .run .cleanUp, .run .waitForInterceptor]

theorem crashed_start_loses_entry : ¬∀ (strategy : Option PktselMode) (attackerStatus : WaitStatus)
    (messages : List Message) (directory : List (String × SeedFile)) (actions : List InitAction)
    (main : MainLoop), Started strategy attackerStatus messages directory actions main →
      ReadsEntries main := by
  intro always
  have started : Started none (.signaled sigkill) [] [] crashingActions
      ⟨emptyQueue, .start none⟩ := .collected rfl rfl rfl
  obtain ⟨entry, member, -⟩ := always _ _ _ _ _ _ started "" [] _ rfl
  cases member

end Blueman.Startup
