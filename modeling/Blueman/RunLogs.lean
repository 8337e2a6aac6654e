import Blueman.FuzzRun
import Blueman.Library.RewoundFile
import Mathlib.Logic.Function.Basic

/-!
# The logs of the processes

The target and the attacker write to log files that `init_fuzzer` opens once and
cuts. `fuzz_one` rewinds the descriptors, which the processes share, and copies a
log where it reports a run: that of the target when it has ended by a crash, an
error or a timeout, that of the attacker when it has failed.
-/

namespace Blueman.RunLogs

open RunOutcome FuzzRun Execution RewoundFile

set_option autoImplicit false

inductive LogOwner
  | attacker
  | target
deriving DecidableEq

/-- `who` of `save_attack_error_info`. -/
def LogOwner.who : LogOwner → Nat
  | .attacker => 0
  | .target => 1

def wtermsig : WaitStatus → Nat
  | .exited _ => 0
  | .signaled signal => signal

def wexitstatus : WaitStatus → Nat
  | .exited code => code.toNat
  | .signaled _ => 0

/-- What a saved log is: of whom, and how that process had ended. -/
structure LogReport where
  directory : Directory
  owner : LogOwner
  status : WaitStatus

def logPath (totalExecTimes attackErrorCount : UInt64) (report : LogReport) : Option String :=
  let ending := "_" ++ toString (wtermsig report.status) ++ "_" ++
    toString (wexitstatus report.status)
  match report.directory with
  | .seed => none
  | .crash => some ("./output/crash_log//log_" ++ toString totalExecTimes ++ ending)
  | .timeout => some ("./output/timeout_log//log_" ++ toString totalExecTimes)
  | .attackErr => some ("./output/attack_err_log//log_" ++ toString attackErrorCount ++ "_" ++
      toString report.owner.who ++ ending)

/-- The copy writes to the start of the destination. An empty log cannot be mapped. -/
def myCopyFileRange (log destination : List UInt8) : Option (List UInt8) :=
  if log = [] then none else some (overlay log destination)

/-- A copy that fails leaves the destination, but after an attack error the parent
loops forever. -/
def storedLog (directory : Directory) (log destination : List UInt8) : Option (List UInt8) :=
  match myCopyFileRange log destination with
  | some copied => some copied
  | none => if directory = .attackErr then none else some destination

/-- What was at the path before, and what has been stored there. -/
structure SavedLog where
  path : String
  owner : LogOwner
  before : List UInt8
  stored : List UInt8

section

variable {Place : Type}

/-- A run, the two log files, and the files saved. The history is what each process
has written in the run, and the logs saved in it. -/
structure LoggedRun (Place : Type) where
  run : RunState Place
  logs : LogOwner → OpenFile UInt8
  files : String → Option (List UInt8)
  attackErrorCount : UInt64
  output : LogOwner → List UInt8
  saved : List SavedLog

inductive LogAction
  | run (action : Action)
  | write (owner : LogOwner) (bytes : List UInt8)

/-- The process is there to write. The clean-up kills the attacker. -/
def Writes (run : RunState Place) : LogOwner → Bool
  | .target => !(run.target matches .ended _ _)
  | .attacker => run.parent matches .waitingForTarget | .cleaning _

/-- What `wait_for_target` and the clean-up have to save. -/
def logReports (setup : Setup Place) (run : RunState Place) : Action → List LogReport
  | .waitForTarget =>
      match run.target with
      | .ended status _ => (targetSaves status).map fun directory => ⟨directory, .target, status⟩
      | _ => []
  | .cleanUp =>
      match run.parent with
      | .cleaning fault => (cleanUpSaves setup.attackerStatus fault).map fun directory =>
          if directory = .timeout then ⟨directory, .target, .signaled sigkill⟩
          else ⟨directory, .attacker, setup.attackerStatus⟩
      | _ => []
  | _ => []

def saveLog (totalExecTimes : UInt64) (state : LoggedRun Place) (report : LogReport) :
    Option (LoggedRun Place) :=
  match logPath totalExecTimes state.attackErrorCount report with
  | none => some state
  | some path =>
      let before := (state.files path).getD []
      (storedLog report.directory (state.logs report.owner).content before).map fun stored =>
        { state with
          files := Function.update state.files path (some stored)
          attackErrorCount :=
            if report.directory = .attackErr then state.attackErrorCount + 1
            else state.attackErrorCount
          saved := state.saved ++ [⟨path, report.owner, before, stored⟩] }

def logStep (setup : Setup Place) (totalExecTimes : UInt64) (state : LoggedRun Place) :
    LogAction → Option (LoggedRun Place)
  | .run action =>
      (step setup state.run action).bind fun run =>
        (logReports setup state.run action).foldlM (saveLog totalExecTimes)
          { state with run := run }
  | .write owner bytes =>
      if Writes state.run owner then
        some { state with
          logs := Function.update state.logs owner ((state.logs owner).write bytes)
          output := Function.update state.output owner (state.output owner ++ bytes) }
      else none

end

/-- What stays from run to run, and what the processes of each run have written. -/
structure Session where
  logs : LogOwner → OpenFile UInt8
  files : String → Option (List UInt8)
  attackErrorCount : UInt64
  totalExecTimes : UInt64
  outputs : List (LogOwner → List UInt8)

/-- `init_fuzzer` cuts the logs; earlier sessions may have left any files. -/
def initFuzzer (files : String → Option (List UInt8)) : Session :=
  ⟨fun _ => .truncated, files, 0, 0, []⟩

structure RunInput where
  mode : Mode
  attackerStatus : WaitStatus
  messages : List Message
  actions : List LogAction

def RunInput.setup (input : RunInput) : Setup input.mode.Place :=
  input.mode.setup input.attackerStatus

/-- A run that collects a seed is not counted. -/
def RunInput.times (input : RunInput) (session : Session) : UInt64 :=
  match input.mode with
  | .initCorpus => session.totalExecTimes
  | .fuzz _ _ => session.totalExecTimes + 1

/-- `fuzz_one` starts with the logs rewound. -/
def beginRun (session : Session) (input : RunInput) : LoggedRun input.mode.Place where
  run := .start input.setup input.messages
  logs owner := (session.logs owner).rewind
  files := session.files
  attackErrorCount := session.attackErrorCount
  output _ := []
  saved := []

def runLogged (session : Session) (input : RunInput) : Option (LoggedRun input.mode.Place) :=
  exec (logStep input.setup (input.times session)) (beginRun session input) input.actions

def runOnce (session : Session) (input : RunInput) : Option Session :=
  (runLogged session input).bind fun state =>
    match state.run.parent with
    | .finished _ => some ⟨state.logs, state.files, state.attackErrorCount, input.times session,
        session.outputs ++ [state.output]⟩
    | _ => none

theorem stored_log_overlay {directory : Directory} {log destination stored : List UInt8}
    (copied : storedLog directory log destination = some stored) :
    stored = overlay log destination := by
  unfold storedLog myCopyFileRange at copied
  by_cases empty : log = []
  · rw [if_pos empty] at copied
    obtain ⟨-, same⟩ := Option.ite_none_left_eq_some.mp copied
    cases same
    rw [empty, overlay_nil]
  · rw [if_neg empty] at copied
    cases copied
    rfl

section

variable {Place : Type} {setup : Setup Place}

theorem not_writes_target {run : RunState Place} (gone : Writes run .target = false) :
    ∃ status inHook, run.target = .ended status inHook := by
  cases target : run.target with
  | ended status inHook => exact ⟨status, inHook, rfl⟩
  | _ => simp [Writes, target] at gone

theorem step_silent {run next : RunState Place} {action : Action}
    (taken : step setup run action = some next) {owner : LogOwner}
    (gone : Writes run owner = false) : Writes next owner = false := by
  cases owner with
  | target =>
      obtain ⟨status, inHook, ended⟩ := not_writes_target gone
      cases step_turn taken with
      | hook outside _ => simp [outside] at ended
      | overflow outside _ => simp [outside] at ended
      | consume inHook _ => simp [inHook] at ended
      | die dies => simp [ended, Target.die] at dies
      | alarm => simp [Writes, ended, Target.kill]
      | _ => exact gone
  | attacker =>
      cases step_turn taken with
      | waitForTarget waits _ => simp [Writes, waits] at gone
      | recreate => rfl
      | keep => rfl
      | waitForInterceptor => rfl
      | _ => exact gone

def Reaped (run : RunState Place) : Prop :=
  run.parent = .waitingForTarget ∨ Writes run .target = false

theorem step_reaped {run next : RunState Place} {action : Action}
    (taken : step setup run action = some next) (reaped : Reaped run) : Reaped next := by
  rcases reaped with waits | gone
  · cases step_turn taken with
    | waitForTarget _ gone => exact .inr (by simp [Writes, gone])
    | recreate cleans _ => simp [waits] at cleans
    | keep cleans _ => simp [waits] at cleans
    | waitForInterceptor later _ => simp [waits] at later
    | _ => exact .inl waits
  · exact .inr (step_silent taken gone)

theorem clean_up_reports_silent {run next : RunState Place} {fault : RunFault}
    (cleans : run.parent = .cleaning fault) (reaped : Reaped run)
    (target : Writes next .target = Writes run .target) (attacker : Writes next .attacker = false) :
    ∀ report ∈ logReports setup run .cleanUp, Writes next report.owner = false := by
  intro report member
  have gone : Writes run .target = false := reaped.resolve_left (by simp [cleans])
  simp only [logReports, cleans] at member
  obtain ⟨directory, -, rfl⟩ := List.mem_map.mp member
  split_ifs
  · rw [target, gone]
  · exact attacker

theorem reports_silent {run next : RunState Place} {action : Action}
    (taken : step setup run action = some next) (reaped : Reaped run) :
    ∀ report ∈ logReports setup run action, Writes next report.owner = false := by
  cases step_turn taken with
  | waitForTarget _ gone =>
      intro report member
      simp only [logReports, gone] at member
      obtain ⟨directory, -, rfl⟩ := List.mem_map.mp member
      simp [Writes, gone]
  | recreate cleans _ => exact clean_up_reports_silent cleans reaped rfl rfl
  | keep cleans _ => exact clean_up_reports_silent cleans reaped rfl rfl
  | _ =>
      intro report member
      cases member

/-- The logs hold what the processes have written over what they held before the
run, and so does what has been saved, over what was at its place. -/
structure Logging (old : LogOwner → List UInt8) (state : LoggedRun Place) : Prop where
  reaped : Reaped state.run
  rewritten : ∀ owner, Rewritten (state.output owner) (old owner) (state.logs owner)
  silent : ∀ log ∈ state.saved, Writes state.run log.owner = false
  stored : ∀ log ∈ state.saved,
    log.stored = overlay (overlay (state.output log.owner) (old log.owner)) log.before

theorem save_log_keeps {totalExecTimes : UInt64} {old : LogOwner → List UInt8}
    {state next : LoggedRun Place} {report : LogReport}
    (saves : saveLog totalExecTimes state report = some next) (holds : Logging old state)
    (gone : Writes state.run report.owner = false) : Logging old next ∧ next.run = state.run := by
  unfold saveLog at saves
  split at saves
  · cases saves
    exact ⟨holds, rfl⟩
  · obtain ⟨stored, copied, rfl⟩ := Option.map_eq_some_iff.mp saves
    refine ⟨⟨holds.reaped, holds.rewritten, ?_, ?_⟩, rfl⟩
    · intro log member
      rcases List.mem_append.mp member with earlier | last
      · exact holds.silent log earlier
      · rw [List.mem_singleton.mp last]
        exact gone
    · intro log member
      rcases List.mem_append.mp member with earlier | last
      · exact holds.stored log earlier
      · rw [List.mem_singleton.mp last]
        have content := (holds.rewritten report.owner).content
        exact content ▸ stored_log_overlay copied

theorem save_logs_keep {totalExecTimes : UInt64} {old : LogOwner → List UInt8}
    (reports : List LogReport) {state next : LoggedRun Place}
    (saves : reports.foldlM (saveLog totalExecTimes) state = some next) (holds : Logging old state)
    (gone : ∀ report ∈ reports, Writes state.run report.owner = false) : Logging old next := by
  induction reports generalizing state with
  | nil =>
      cases saves
      exact holds
  | cons report rest induction =>
      rw [List.foldlM_cons] at saves
      obtain ⟨middle, first, saves⟩ := Option.bind_eq_some_iff.mp saves
      obtain ⟨kept, same⟩ := save_log_keeps first holds (gone report List.mem_cons_self)
      apply induction saves kept
      intro other member
      rw [same]
      exact gone other (List.mem_cons_of_mem _ member)

theorem write_keeps {old : LogOwner → List UInt8} {state : LoggedRun Place} {owner : LogOwner}
    (writes : Writes state.run owner = true) (bytes : List UInt8) (holds : Logging old state) :
    Logging old { state with
      logs := Function.update state.logs owner ((state.logs owner).write bytes)
      output := Function.update state.output owner (state.output owner ++ bytes) } := by
  refine ⟨holds.reaped, ?_, holds.silent, ?_⟩
  · intro other
    by_cases same : other = owner
    · subst same
      simp only [Function.update_self]
      exact (holds.rewritten other).write bytes
    · simp only [Function.update_of_ne same]
      exact holds.rewritten other
  · intro log member
    have other : log.owner ≠ owner := by
      rintro rfl
      rw [holds.silent log member] at writes
      cases writes
    simp only [Function.update_of_ne other]
    exact holds.stored log member

theorem log_step_keeps {totalExecTimes : UInt64} {old : LogOwner → List UInt8} :
    Preserves (logStep setup totalExecTimes) (Logging old) := by
  intro state action next taken holds
  cases action with
  | run action =>
      obtain ⟨run, moved, saves⟩ := Option.bind_eq_some_iff.mp taken
      refine save_logs_keep _ saves ?_ (reports_silent moved holds.reaped)
      exact ⟨step_reaped moved holds.reaped, holds.rewritten,
        fun log member => step_silent moved (holds.silent log member), holds.stored⟩
  | write owner bytes =>
      obtain ⟨writes, same⟩ := Option.ite_none_right_eq_some.mp taken
      cases same
      exact write_keeps writes bytes holds

end

theorem begin_run_logging (session : Session) (input : RunInput) :
    Logging (fun owner => (session.logs owner).content) (beginRun session input) := by
  refine ⟨.inl rfl, fun owner => rewind_rewritten (session.logs owner), ?_, ?_⟩
  all_goals
    intro log member
    cases member

theorem run_logging {session : Session} {input : RunInput} {state : LoggedRun input.mode.Place}
    (run : runLogged session input = some state) :
    Logging (fun owner => (session.logs owner).content) state :=
  exec_preserves log_step_keeps run (begin_run_logging session input)

def Longest (session : Session) : Prop :=
  ∀ (owner : LogOwner) (bound : Nat), (session.logs owner).content.length ≤ bound ↔
    ∀ output ∈ session.outputs, (output owner).length ≤ bound

theorem init_longest (files : String → Option (List UInt8)) : Longest (initFuzzer files) := by
  intro owner bound
  refine iff_of_true (Nat.zero_le bound) ?_
  intro output member
  cases member

theorem run_once_longest : Preserves runOnce Longest := by
  intro session input next taken longest owner bound
  obtain ⟨state, run, finished⟩ := Option.bind_eq_some_iff.mp taken
  split at finished
  · cases finished
    have rewritten := ((run_logging run).rewritten owner).content
    simp only [rewritten, overlay_length, Nat.max_le, longest owner bound, List.forall_mem_append,
      List.forall_mem_singleton]
    exact and_comm
  · cases finished

/-- A log that is saved holds what its process has written in the run, and nothing
else, exactly when that process has not written more in an earlier run, and what
was at the place of the copy was not longer either. -/
theorem saved_log_own_iff {files : String → Option (List UInt8)} {inputs : List RunInput}
    {session : Session} {input : RunInput} {state : LoggedRun input.mode.Place}
    (before : exec runOnce (initFuzzer files) inputs = some session)
    (run : runLogged session input = some state) :
    ∀ log ∈ state.saved, log.stored = state.output log.owner ↔
      (∀ output ∈ session.outputs,
        (output log.owner).length ≤ (state.output log.owner).length) ∧
      log.before.length ≤ (state.output log.owner).length := by
  intro log member
  have longest := exec_preserves run_once_longest before (init_longest files)
  rw [(run_logging run).stored log member, overlay_overlay_eq_iff, longest]

def exitingRun (bytes : List UInt8) : RunInput :=
  ⟨.fuzz .random [], .signaled sigkill, [], [.write .target bytes, .run (.die (.exited 0)),
    .run .waitForTarget, .run .cleanUp, .run .alarm, .run .waitForInterceptor]⟩

def crashingRun (bytes : List UInt8) : RunInput :=
  ⟨.fuzz .random [], .signaled sigkill, [], [.write .target bytes, .run (.die (.signaled 11)),
    .run .waitForTarget, .run .cleanUp, .run .waitForInterceptor]⟩

theorem first_crash_log_own : ∃ state,
    runLogged (initFuzzer fun _ => none) (crashingRun [67]) = some state ∧ state.saved ≠ [] ∧
      ∀ log ∈ state.saved, log.stored = state.output log.owner := by
  have before : exec runOnce (initFuzzer fun _ => none) [] = some (initFuzzer fun _ => none) := rfl
  refine ⟨_, rfl, List.cons_ne_nil _ _, ?_⟩
  intro log member
  apply (saved_log_own_iff before rfl log member).mpr
  constructor
  · intro output none
    cases none
  · rw [List.mem_singleton.mp member]
    exact Nat.zero_le _

/-- After two bytes of an earlier run one byte is saved with the second of them. -/
theorem shorter_crash_log_mixed : ¬∀ (files : String → Option (List UInt8))
    (inputs : List RunInput) (session : Session) (input : RunInput)
    (state : LoggedRun input.mode.Place), exec runOnce (initFuzzer files) inputs = some session →
      runLogged session input = some state →
        ∀ log ∈ state.saved, log.stored = state.output log.owner := by
  intro always
  have mixed : ((exec runOnce (initFuzzer fun _ => none) [exitingRun [65, 66]]).any fun session =>
      (runLogged session (crashingRun [67])).any fun state =>
        state.saved.any fun log => log.stored != state.output log.owner) = true := by
    decide +kernel
  obtain ⟨session, before, mixed⟩ := (Option.any_eq_true _ _).mp mixed
  obtain ⟨state, run, mixed⟩ := (Option.any_eq_true _ _).mp mixed
  obtain ⟨log, member, different⟩ := List.any_eq_true.mp mixed
  exact bne_iff_ne.mp different (always _ _ _ _ _ before run log member)

end Blueman.RunLogs
