import Blueman.Library.NamedFiles
import Blueman.RunLogs

/-!
# The reports of a run

A crash, a timeout and an error of the target or the attacker is reported by the
packet record of the run, then by the log of the process, and then counted. Where
an error has left no output its log cannot be copied, and `save_attack_error_info`
does not return. The attacker ends by itself, or the clean-up kills it.
-/

namespace Blueman.RunReports

open LittleEndian BlePacket PacketRecord RunOutcome FuzzRun Execution RewoundFile RunLogs
open NamedFiles

set_option autoImplicit false

/-- The output directories, as `init_fuzzer` names them. -/
def outputPath : Directory → String
  | .seed => "./output/seed/"
  | .crash => "./output/crash/"
  | .timeout => "./output/timeout/"
  | .attackErr => "./output/attack_err_corpus/"

def corpusPath (directory : Directory) (number : UInt64) (ending : String) : String :=
  outputPath directory ++ "/corpus_" ++ toString number ++ ending

/-- A record that was saved, and the number it was named by. -/
structure Reproducer where
  directory : Directory
  number : UInt64
  ending : String
  file : SeedFile

def Reproducer.path (reproducer : Reproducer) : String :=
  corpusPath reproducer.directory reproducer.number reproducer.ending

def Reproducer.key (reproducer : Reproducer) : Directory × UInt64 :=
  (reproducer.directory, reproducer.number)

def Reproducer.save (reproducer : Reproducer) : Directory × SeedFile :=
  (reproducer.directory, reproducer.file)

/-- The records in the output directory and the counters of crashes and timeouts; the
last field is the history. -/
structure Outputs where
  files : String → Option SeedFile
  crashCount : UInt64
  timeoutCount : UInt64
  reproducers : List Reproducer

def Outputs.count (outputs : Outputs) (directory : Directory) : Nat :=
  outputs.reproducers.countP fun reproducer => reproducer.directory = directory

def saveErrorCorpus (reproducer : Reproducer) (outputs : Outputs) : Outputs :=
  { outputs with
    files := put outputs.files reproducer.path reproducer.file
    reproducers := outputs.reproducers ++ [reproducer] }

section

variable {Place : Type}

/-- A run with its logs and its reports. The attacker may have ended by itself, and the
parent may be in the loop of `save_attack_error_info`. -/
structure ReportedRun (Place : Type) extends LoggedRun Place where
  outputs : Outputs
  attackerGone : Bool
  looping : Bool

/-- What the three calls have in common: the record, the log, then the counter. The
error counter goes on with the log. -/
def saveErrorInfo (reproducer : Reproducer) (counted : Outputs → Outputs)
    (totalExecTimes : UInt64) (report : LogReport) (state : ReportedRun Place) :
    ReportedRun Place :=
  let outputs := saveErrorCorpus reproducer state.outputs
  match saveLog totalExecTimes state.toLoggedRun report with
  | some logged => { state with toLoggedRun := logged, outputs := counted outputs }
  | none => { state with outputs := outputs, looping := true }

def saveTimeoutErrorInfo (totalExecTimes : UInt64) (pktRec : PktRecord) (report : LogReport)
    (state : ReportedRun Place) : ReportedRun Place :=
  saveErrorInfo ⟨.timeout, totalExecTimes, "", saveSeqBufToFile2 pktRec⟩
    (fun outputs => { outputs with timeoutCount := outputs.timeoutCount + 1 })
    totalExecTimes report state

def saveSignalErrorInfo (totalExecTimes : UInt64) (pktRec : PktRecord) (report : LogReport)
    (state : ReportedRun Place) : ReportedRun Place :=
  saveErrorInfo ⟨.crash, totalExecTimes, "_" ++ toString (wtermsig report.status) ++ "_" ++
      toString (wexitstatus report.status), saveSeqBufToFile2 pktRec⟩
    (fun outputs => { outputs with crashCount := outputs.crashCount + 1 })
    totalExecTimes report state

def saveAttackErrorInfo (totalExecTimes : UInt64) (pktRec : PktRecord) (report : LogReport)
    (state : ReportedRun Place) : ReportedRun Place :=
  saveErrorInfo ⟨.attackErr, state.attackErrorCount, "_" ++ toString report.owner.who ++ "_" ++
      toString (wtermsig report.status) ++ "_" ++ toString (wexitstatus report.status),
      saveSeqBufToFile2 pktRec⟩
    id totalExecTimes report state

/-- The call that makes the report. From the loop there is no other. -/
def saveReport (totalExecTimes : UInt64) (pktRec : PktRecord) (state : ReportedRun Place)
    (report : LogReport) : ReportedRun Place :=
  if state.looping then state
  else
    match report.directory with
    | .seed => state
    | .crash => saveSignalErrorInfo totalExecTimes pktRec report state
    | .timeout => saveTimeoutErrorInfo totalExecTimes pktRec report state
    | .attackErr => saveAttackErrorInfo totalExecTimes pktRec report state

inductive ReportAction
  | run (action : Action)
  | write (owner : LogOwner) (bytes : List UInt8)
  | attackerEnds

/-- The parent takes no step in the loop. The status of the attacker is that of the kill
in the clean-up, or else it has ended before. -/
def parentFree (setup : Setup Place) (state : ReportedRun Place) : Action → Bool
  | .waitForTarget | .waitForInterceptor => !state.looping
  | .cleanUp =>
      !state.looping &&
        (state.attackerGone || decide (setup.attackerStatus = .signaled sigkill))
  | _ => true

def ReportedRun.writes (state : ReportedRun Place) (owner : LogOwner) : Bool :=
  Writes state.run owner && !(state.attackerGone && owner == .attacker)

def reportStep (setup : Setup Place) (totalExecTimes : UInt64) (state : ReportedRun Place) :
    ReportAction → Option (ReportedRun Place)
  | .run action =>
      if parentFree setup state action then
        (step setup state.run action).map fun run =>
          (logReports setup state.run action).foldl (saveReport totalExecTimes state.run.pktRec)
            { state with run := run }
      else none
  | .write owner bytes =>
      if state.writes owner then
        some { state with
          logs := Function.update state.logs owner ((state.logs owner).write bytes)
          output := Function.update state.output owner (state.output owner ++ bytes) }
      else none
  | .attackerEnds =>
      if state.writes .attacker then some { state with attackerGone := true } else none

structure Session where
  logs : LogOwner → OpenFile UInt8
  logFiles : String → Option (List UInt8)
  attackErrorCount : UInt64
  totalExecTimes : UInt64
  outputs : Outputs

/-- `init_fuzzer` cuts the logs; earlier sessions may have left any files. -/
def Session.start (files : String → Option SeedFile) (logFiles : String → Option (List UInt8)) :
    Session :=
  ⟨fun _ => .truncated, logFiles, 0, 0, ⟨files, 0, 0, []⟩⟩

/-- `fuzz_one` starts with the logs rewound. -/
def Session.begin (session : Session) (setup : Setup Place) (queue : List Message) :
    ReportedRun Place where
  run := .start setup queue
  logs owner := (session.logs owner).rewind
  files := session.logFiles
  attackErrorCount := session.attackErrorCount
  output _ := []
  saved := []
  outputs := session.outputs
  attackerGone := false
  looping := false

theorem save_log_none_iff {totalExecTimes : UInt64} {state : LoggedRun Place}
    {report : LogReport} : saveLog totalExecTimes state report = none ↔
      report.directory = .attackErr ∧ (state.logs report.owner).content = [] := by
  obtain ⟨directory, owner, status⟩ := report
  unfold saveLog
  cases directory with
  | seed => simp [logPath]
  | _ =>
      simp only [logPath, Option.map_eq_none_iff, storedLog, myCopyFileRange]
      split_ifs <;> simp_all

theorem save_log_cases {totalExecTimes : UInt64} {state next : LoggedRun Place}
    {report : LogReport} (saves : saveLog totalExecTimes state report = some next) :
    next.run = state.run ∧ next.logs = state.logs ∧
      next.attackErrorCount = if report.directory = .attackErr then state.attackErrorCount + 1
        else state.attackErrorCount := by
  obtain ⟨directory, owner, status⟩ := report
  unfold saveLog at saves
  cases directory with
  | seed =>
      cases saves
      exact ⟨rfl, rfl, rfl⟩
  | _ =>
      obtain ⟨stored, -, rfl⟩ := Option.map_eq_some_iff.mp saves
      exact ⟨rfl, rfl, rfl⟩

/-- Some error of the list has left an empty log. -/
def Unreportable (logs : LogOwner → OpenFile UInt8) (reports : List LogReport) : Prop :=
  ∃ report ∈ reports, report.directory = .attackErr ∧ (logs report.owner).content = []

/-- Reports leave the processes and the logs alone, and loop at such an error. -/
structure Undisturbed (state next : ReportedRun Place) (reports : List LogReport) : Prop where
  run : next.run = state.run
  logs : next.logs = state.logs
  attackerGone : next.attackerGone = state.attackerGone
  looping : next.looping = true ↔ state.looping = true ∨ Unreportable state.logs reports

theorem save_error_info_undisturbed (reproducer : Reproducer) (counted : Outputs → Outputs)
    (totalExecTimes : UInt64) (report : LogReport) {state : ReportedRun Place}
    (free : state.looping = false) :
    Undisturbed state (saveErrorInfo reproducer counted totalExecTimes report state) [report] := by
  have missing := @save_log_none_iff Place totalExecTimes state.toLoggedRun report
  unfold saveErrorInfo
  cases saves : saveLog totalExecTimes state.toLoggedRun report with
  | none =>
      refine ⟨rfl, rfl, rfl, iff_of_true rfl (.inr ⟨report, List.mem_singleton_self _, ?_⟩)⟩
      exact missing.mp saves
  | some logged =>
      obtain ⟨run, logs, -⟩ := save_log_cases saves
      refine ⟨run, logs, rfl, iff_of_false (by simp [free]) ?_⟩
      intro loops
      obtain ⟨other, member, error⟩ := loops.resolve_left (by simp [free])
      rw [List.mem_singleton.mp member] at error
      rw [missing.mpr error] at saves
      cases saves

theorem save_report_undisturbed (totalExecTimes : UInt64) (pktRec : PktRecord)
    (state : ReportedRun Place) (report : LogReport) :
    Undisturbed state (saveReport totalExecTimes pktRec state report) [report] := by
  unfold saveReport
  split_ifs with loops
  · exact ⟨rfl, rfl, rfl, iff_of_true loops (.inl loops)⟩
  · have free : state.looping = false := Bool.eq_false_of_not_eq_true loops
    cases place : report.directory with
    | seed => exact ⟨rfl, rfl, rfl, by simp [free, Unreportable, place]⟩
    | _ => exact save_error_info_undisturbed _ _ totalExecTimes report free

theorem save_reports_undisturbed (totalExecTimes : UInt64) (pktRec : PktRecord)
    (reports : List LogReport) (state : ReportedRun Place) :
    Undisturbed state (reports.foldl (saveReport totalExecTimes pktRec) state) reports := by
  induction reports generalizing state with
  | nil => exact ⟨rfl, rfl, rfl, by simp [Unreportable]⟩
  | cons report rest induction =>
      have first := save_report_undisturbed totalExecTimes pktRec state report
      have later := induction (saveReport totalExecTimes pktRec state report)
      refine ⟨later.run.trans first.run, later.logs.trans first.logs,
        later.attackerGone.trans first.attackerGone, ?_⟩
      rw [List.foldl_cons, later.looping, first.looping, first.logs]
      simp [Unreportable, or_assoc]

/-- The steps one by one; what they do to the files is left out. -/
inductive ReportTurn (setup : Setup Place) (state : ReportedRun Place) :
    ReportAction → ReportedRun Place → Prop
  | run {action : Action} {next : ReportedRun Place}
      (free : parentFree setup state action = true)
      (taken : step setup state.run action = some next.run) (logs : next.logs = state.logs)
      (gone : next.attackerGone = state.attackerGone)
      (loops : next.looping = true ↔
        state.looping = true ∨ Unreportable state.logs (logReports setup state.run action)) :
      ReportTurn setup state (.run action) next
  | write {owner : LogOwner} {bytes : List UInt8} (there : state.writes owner = true) :
      ReportTurn setup state (.write owner bytes) { state with
        logs := Function.update state.logs owner ((state.logs owner).write bytes)
        output := Function.update state.output owner (state.output owner ++ bytes) }
  | attackerEnds (there : state.writes .attacker = true) :
      ReportTurn setup state .attackerEnds { state with attackerGone := true }

theorem report_step_turn {setup : Setup Place} {totalExecTimes : UInt64}
    {state next : ReportedRun Place} {action : ReportAction}
    (taken : reportStep setup totalExecTimes state action = some next) :
    ReportTurn setup state action next := by
  cases action with
  | run action =>
      obtain ⟨free, taken⟩ := Option.ite_none_right_eq_some.mp taken
      obtain ⟨run, moved, rfl⟩ := Option.map_eq_some_iff.mp taken
      have kept := save_reports_undisturbed totalExecTimes state.run.pktRec
        (logReports setup state.run action) { state with run := run }
      exact .run free (kept.run ▸ moved) kept.logs kept.attackerGone kept.looping
  | write owner bytes =>
      obtain ⟨there, same⟩ := Option.ite_none_right_eq_some.mp taken
      cases same
      exact .write there
  | attackerEnds =>
      obtain ⟨there, same⟩ := Option.ite_none_right_eq_some.mp taken
      cases same
      exact .attackerEnds there

theorem reported_step {setup : Setup Place} {totalExecTimes : UInt64}
    {state next : ReportedRun Place} {action : ReportAction}
    (taken : reportStep setup totalExecTimes state action = some next) :
    (∃ base, action = .run base ∧ step setup state.run base = some next.run) ∨
      next.run = state.run := by
  cases report_step_turn taken with
  | run _ moved _ _ _ => exact .inl ⟨_, rfl, moved⟩
  | write _ => exact .inr rfl
  | attackerEnds _ => exact .inr rfl

theorem reported_run {setup : Setup Place} {totalExecTimes : UInt64}
    {state final : ReportedRun Place} {actions : List ReportAction}
    (run : exec (reportStep setup totalExecTimes) state actions = some final) :
    ∃ steps, exec (step setup) state.run steps = some final.run := by
  induction actions generalizing state with
  | nil =>
      cases run
      exact ⟨[], rfl⟩
  | cons action rest induction =>
      obtain ⟨next, taken, run⟩ := exec_cons.mp run
      obtain ⟨steps, later⟩ := induction run
      rcases reported_step taken with ⟨base, -, moved⟩ | same
      · exact ⟨base :: steps, exec_cons.mpr ⟨next.run, moved, later⟩⟩
      · exact ⟨steps, same ▸ later⟩

theorem step_reports {setup : Setup Place} {run next : RunState Place} {action : Action}
    (taken : step setup run action = some next) :
    logReports setup run action = [] ∧ next.parent = run.parent ∨
    (∃ status inHook, run.target = .ended status inHook ∧ action = .waitForTarget ∧
      run.parent = .waitingForTarget ∧ next.parent = .cleaning (faultOfStatus status)) ∨
    (∃ fault, action = .cleanUp ∧ run.parent = .cleaning fault ∧
      next.parent = .waitingForInterceptor fault) ∨
    ∃ fault, action = .waitForInterceptor ∧ run.parent = .waitingForInterceptor fault ∧
      next.parent = .finished fault := by
  cases step_turn taken with
  | waitForTarget waits gone => exact .inr (.inl ⟨_, _, gone, rfl, waits, rfl⟩)
  | recreate cleans _ => exact .inr (.inr (.inl ⟨_, rfl, cleans, rfl⟩))
  | keep cleans _ => exact .inr (.inr (.inl ⟨_, rfl, cleans, rfl⟩))
  | waitForInterceptor waits _ => exact .inr (.inr (.inr ⟨_, rfl, waits, rfl⟩))
  | _ => exact .inl ⟨rfl, rfl⟩

theorem attack_err_saved_iff (status : WaitStatus) :
    Directory.attackErr ∈ targetSaves status ↔ ∃ code, status = .exited code ∧ 1 < code := by
  cases status with
  | signaled signal =>
      simp only [targetSaves]
      split_ifs <;> simp
  | exited code =>
      have bad : 1 < code ↔ code ≠ 0 ∧ code ≠ 1 := by
        rw [UInt8.lt_iff_toNat_lt, ne_eq, ne_eq, ← UInt8.toNat_inj, ← UInt8.toNat_inj]
        simp only [UInt8.reduceToNat]
        omega
      simp only [targetSaves, WaitStatus.exited.injEq, exists_eq_left', bad]
      split_ifs <;> simp_all

theorem target_unreportable_iff {run : RunState Place} {setup : Setup Place}
    {logs : LogOwner → OpenFile UInt8} :
    Unreportable logs (logReports setup run .waitForTarget) ↔
      (∃ code inHook, run.target = .ended (.exited code) inHook ∧ 1 < code) ∧
        (logs .target).content = [] := by
  simp only [logReports]
  split
  · rename_i status inHook ended
    rw [ended]
    have saved := attack_err_saved_iff status
    constructor
    · rintro ⟨report, member, error, empty⟩
      obtain ⟨directory, inside, rfl⟩ := List.mem_map.mp member
      obtain ⟨code, rfl, bad⟩ := saved.mp (error ▸ inside)
      exact ⟨⟨code, inHook, rfl, bad⟩, empty⟩
    · rintro ⟨⟨code, place, same, bad⟩, empty⟩
      cases same
      exact ⟨_, List.mem_map_of_mem (saved.mpr ⟨code, rfl, bad⟩), rfl, empty⟩
  · rename_i other
    refine iff_of_false (by simp [Unreportable]) ?_
    rintro ⟨⟨code, place, ended, -⟩, -⟩
    exact other _ _ ended

theorem clean_up_unreportable_iff {run : RunState Place} {setup : Setup Place}
    {logs : LogOwner → OpenFile UInt8} {fault : RunFault} (cleans : run.parent = .cleaning fault) :
    Unreportable logs (logReports setup run .cleanUp) ↔
      attackerFailed setup.attackerStatus = true ∧ (logs .attacker).content = [] := by
  have saved : Directory.attackErr ∈ cleanUpSaves setup.attackerStatus fault ↔
      attackerFailed setup.attackerStatus = true := by
    simp [cleanUpSaves]
  simp only [logReports, cleans, ← saved]
  constructor
  · rintro ⟨report, member, error, empty⟩
    obtain ⟨directory, inside, rfl⟩ := List.mem_map.mp member
    by_cases timeout : directory = .timeout
    · simp [timeout] at error
    · rw [if_neg timeout] at error empty
      exact ⟨error ▸ inside, empty⟩
  · rintro ⟨inside, empty⟩
    exact ⟨_, List.mem_map_of_mem inside, rfl, empty⟩

def LoopsInside (state : ReportedRun Place) : Prop :=
  state.looping = true → ∃ fault,
    state.run.parent = .cleaning fault ∨ state.run.parent = .waitingForInterceptor fault

theorem step_loops_inside {setup : Setup Place} {totalExecTimes : UInt64} :
    Preserves (reportStep setup totalExecTimes) LoopsInside := by
  intro state action next taken inside
  cases report_step_turn taken with
  | @run base _ free moved _ _ loops =>
      intro looping
      rcases step_reports moved with ⟨silent, same⟩ | ⟨status, _, _, -, -, cleans⟩ |
        ⟨fault, -, -, waits⟩ | ⟨fault, rfl, -, -⟩
      · rw [same]
        apply inside
        rw [silent] at loops
        simpa [Unreportable] using loops.mp looping
      · exact ⟨_, .inl cleans⟩
      · exact ⟨fault, .inr waits⟩
      · rw [loops] at looping
        have before : state.looping = true := by simpa [logReports, Unreportable] using looping
        simp [parentFree, before] at free
  | write _ => exact inside
  | attackerEnds _ => exact inside

theorem written_other {state : ReportedRun Place} {owner other : LogOwner}
    {log : OpenFile UInt8} (writes : state.writes owner = true)
    (gone : state.writes other = false) :
    (Function.update state.logs owner log other).content = (state.logs other).content := by
  have different : other ≠ owner := by
    rintro rfl
    simp [writes] at gone
  rw [Function.update_of_ne different]

theorem ended_silent {state : ReportedRun Place} {status : WaitStatus} {inHook : Bool}
    (ended : state.run.target = .ended status inHook) : state.writes .target = false := by
  simp [ReportedRun.writes, Writes, ended]

theorem gone_silent {state : ReportedRun Place} (gone : state.attackerGone = true) :
    state.writes .attacker = false := by
  simp [ReportedRun.writes, gone]

theorem save_report_logged {totalExecTimes : UInt64} {pktRec : PktRecord}
    {state : ReportedRun Place} {report : LogReport}
    (returns : (saveReport totalExecTimes pktRec state report).looping = false) :
    saveLog totalExecTimes state.toLoggedRun report =
      some (saveReport totalExecTimes pktRec state report).toLoggedRun := by
  have kept := save_report_undisturbed totalExecTimes pktRec state report
  have loops : ¬(state.looping = true ∨ Unreportable state.logs [report]) := by
    rw [← kept.looping, returns]
    exact Bool.false_ne_true
  obtain ⟨free, reportable⟩ := not_or.mp loops
  cases saves : saveLog totalExecTimes state.toLoggedRun report with
  | none => exact absurd ⟨report, List.mem_singleton_self _, save_log_none_iff.mp saves⟩ reportable
  | some logged =>
      unfold saveReport
      rw [if_neg free]
      cases place : report.directory with
      | seed =>
          simp only [saveLog, logPath, place] at saves
          exact saves.symm
      | crash => simp only [saveSignalErrorInfo, saveErrorInfo, saves]
      | timeout => simp only [saveTimeoutErrorInfo, saveErrorInfo, saves]
      | attackErr => simp only [saveAttackErrorInfo, saveErrorInfo, saves]

theorem save_reports_logged {totalExecTimes : UInt64} {pktRec : PktRecord}
    (reports : List LogReport) {state : ReportedRun Place}
    (returns : (reports.foldl (saveReport totalExecTimes pktRec) state).looping = false) :
    reports.foldlM (saveLog totalExecTimes) state.toLoggedRun =
      some (reports.foldl (saveReport totalExecTimes pktRec) state).toLoggedRun := by
  induction reports generalizing state with
  | nil => rfl
  | cons report rest induction =>
      have later := save_reports_undisturbed totalExecTimes pktRec rest
        (saveReport totalExecTimes pktRec state report)
      have first : (saveReport totalExecTimes pktRec state report).looping = false := by
        apply Bool.eq_false_of_not_eq_true
        intro loops
        have last := later.looping.mpr (.inl loops)
        rw [List.foldl_cons, last] at returns
        cases returns
      rw [List.foldlM_cons, save_report_logged first]
      exact induction returns

/-- As long as the parent does not loop, a run with its reports is one with its logs. -/
theorem reported_run_logged {setup : Setup Place} {totalExecTimes : UInt64}
    {state final : ReportedRun Place} {actions : List ReportAction}
    (run : exec (reportStep setup totalExecTimes) state actions = some final)
    (returns : final.looping = false) : state.looping = false ∧ ∃ steps,
      exec (logStep setup totalExecTimes) state.toLoggedRun steps = some final.toLoggedRun := by
  induction actions generalizing state with
  | nil =>
      cases run
      exact ⟨returns, [], rfl⟩
  | cons action rest induction =>
      obtain ⟨next, taken, run⟩ := exec_cons.mp run
      obtain ⟨free, steps, later⟩ := induction run
      have before : state.looping = false := by
        apply Bool.eq_false_of_not_eq_true
        intro loops
        have after : next.looping = true := by
          cases report_step_turn taken with
          | run _ _ _ _ looping => exact looping.mpr (.inl loops)
          | write _ => exact loops
          | attackerEnds _ => exact loops
        simp [free] at after
      refine ⟨before, ?_⟩
      cases action with
      | run base =>
          obtain ⟨-, taken⟩ := Option.ite_none_right_eq_some.mp taken
          obtain ⟨moved, stepped, rfl⟩ := Option.map_eq_some_iff.mp taken
          refine ⟨.run base :: steps, exec_cons.mpr ⟨_, ?_, later⟩⟩
          simp only [logStep, stepped, Option.bind_some]
          exact save_reports_logged _ free
      | write owner bytes =>
          obtain ⟨there, same⟩ := Option.ite_none_right_eq_some.mp taken
          cases same
          refine ⟨.write owner bytes :: steps, exec_cons.mpr ⟨_, ?_, later⟩⟩
          exact if_pos (Bool.and_eq_true_iff.mp there).1
      | attackerEnds =>
          obtain ⟨-, same⟩ := Option.ite_none_right_eq_some.mp taken
          cases same
          exact ⟨steps, later⟩

end

end Blueman.RunReports
