import Blueman.QueueCampaign
import Blueman.RunReports
import Blueman.SeedNames

/-!
# The reproducers of a session

A crash and a timeout are named by the number of the run, an error by the number of
errors so far. So the names of a session are all different, and the counters count
the files, but for the error at which the parent loops.
-/

namespace Blueman.ErrorReports

open LittleEndian BlePacket PacketRecord RunOutcome Interceptor FuzzRun Execution NamedFiles
open RunLockStep SeedCampaign RunReports
open RunLogs (LogOwner LogReport LoggedRun Writes logReports saveLog)

set_option autoImplicit false

structure ReportedTrial where
  mode : Mode
  attackerStatus : WaitStatus
  queue : List Message
  actions : List ReportAction

def ReportedTrial.setup (trial : ReportedTrial) : Setup trial.mode.Place :=
  trial.mode.setup trial.attackerStatus

/-- A run that collects a seed is not counted. -/
def ReportedTrial.times (trial : ReportedTrial) (session : Session) : UInt64 :=
  match trial.mode with
  | .initCorpus => session.totalExecTimes
  | .fuzz _ _ => session.totalExecTimes + 1

def runReported (session : Session) (trial : ReportedTrial) :
    Option (ReportedRun trial.mode.Place) :=
  exec (reportStep trial.setup (trial.times session)) (session.begin trial.setup trial.queue)
    trial.actions

def runOnce (session : Session) (trial : ReportedTrial) : Option Session :=
  (runReported session trial).bind fun state =>
    match state.run.parent with
    | .finished _ => some ⟨state.logs, state.files, state.attackErrorCount, trial.times session,
        state.outputs⟩
    | _ => none

/-- The run that collects a seed comes first, or not at all. -/
def Ordered (trials : List ReportedTrial) : Prop :=
  ∀ trial ∈ trials.tail, ∃ build corpus, trial.mode = .fuzz build corpus

def Delimited (ending : String) : Prop := ending = "" ∨ ∃ rest, ending.toList = '_' :: rest

theorem number_chars (number : UInt64) :
    (toString number).toList = Nat.toDigits 10 number.toNat := by
  change (toString number.toNat).toList = _
  simp [Nat.repr_eq_ofList_toDigits]

theorem number_digits (number : UInt64) :
    ∀ digit ∈ (toString number).toList, (digit ≠ '_') = true := by
  intro digit member
  rw [number_chars] at member
  have numeral := Nat.isDigit_of_mem_toDigits (by decide) (by decide) member
  have other : digit ≠ '_' := by
    rintro rfl
    cases numeral
  simpa using other

theorem number_taken (number : UInt64) {ending : String} (delimited : Delimited ending) :
    ((toString number).toList ++ ending.toList).takeWhile (· ≠ '_') = (toString number).toList := by
  rw [List.takeWhile_append_of_pos fun digit member => by
    simpa using number_digits number digit member]
  rcases delimited with empty | ⟨rest, chars⟩
  · simp [empty]
  · simp [chars]

theorem number_inj {number other : UInt64}
    (same : (toString number).toList = (toString other).toList) : number = other := by
  rw [number_chars, number_chars] at same
  have value := congrArg (Nat.ofDigitChars 10 · 0) same
  simp only [Nat.ofDigitChars_ten_toDigits] at value
  exact UInt64.toNat_inj.mp value

theorem path_letter (directory : Directory) (number : UInt64) (ending : String) :
    (corpusPath directory number ending).toList[9]? = (outputPath directory).toList[9]? := by
  rw [corpusPath, String.toList_append, String.toList_append, String.toList_append,
    List.append_assoc, List.append_assoc, List.getElem?_append_left]
  cases directory <;> decide

theorem corpus_path_inj {directory other : Directory} {number different : UInt64}
    {ending rest : String} (delimited : Delimited ending) (delimitedRest : Delimited rest)
    (same : corpusPath directory number ending = corpusPath other different rest) :
    directory = other ∧ number = different := by
  have letters := congrArg (fun path => path.toList[9]?) same
  simp only [path_letter] at letters
  have place : directory = other := by
    cases directory <;> cases other <;> first | rfl | exact absurd letters (by decide)
  subst place
  have chars := congrArg String.toList same
  simp only [corpusPath, String.toList_append, List.append_assoc] at chars
  have behind := List.append_cancel_left (List.append_cancel_left chars)
  have taken := congrArg (List.takeWhile (· ≠ '_')) behind
  rw [number_taken number delimited, number_taken different delimitedRest] at taken
  exact ⟨rfl, number_inj taken⟩

section

variable {Place : Type} {setup : Setup Place}

/-- What a report adds: a record, and one to its counter unless the parent loops. -/
structure Reported (times : UInt64) (pktRec : PktRecord) (directory : Directory)
    (state next : ReportedRun Place) (reproducer : Reproducer) : Prop where
  real : directory ≠ .seed
  placed : reproducer.directory = directory
  number : reproducer.number = if directory = .attackErr then state.attackErrorCount else times
  file : reproducer.file = saveSeqBufToFile2 pktRec
  ends : Delimited reproducer.ending
  files : next.outputs.files = put state.outputs.files reproducer.path reproducer.file
  reproducers : next.outputs.reproducers = state.outputs.reproducers ++ [reproducer]
  crashes : next.outputs.crashCount =
    state.outputs.crashCount + if directory = .crash then 1 else 0
  timeouts : next.outputs.timeoutCount =
    state.outputs.timeoutCount + if directory = .timeout then 1 else 0
  errors : next.attackErrorCount =
    state.attackErrorCount + if directory = .attackErr ∧ next.looping = false then 1 else 0
  looping : next.looping = true → directory = .attackErr

theorem underscored (front : String) : Delimited ("_" ++ front) := by
  refine .inr ⟨front.toList, ?_⟩
  rw [String.toList_append]
  rfl

theorem save_error_info_reported {reproducer : Reproducer} {counted : Outputs → Outputs}
    {times : UInt64} {pktRec : PktRecord} {report : LogReport} {state : ReportedRun Place}
    (free : state.looping = false) (real : report.directory ≠ .seed)
    (directory : reproducer.directory = report.directory)
    (number : reproducer.number =
      if report.directory = .attackErr then state.attackErrorCount else times)
    (file : reproducer.file = saveSeqBufToFile2 pktRec) (ends : Delimited reproducer.ending)
    (counts : ∀ outputs, counted outputs = { outputs with
      crashCount := outputs.crashCount + if report.directory = .crash then 1 else 0
      timeoutCount := outputs.timeoutCount + if report.directory = .timeout then 1 else 0 }) :
    Reported times pktRec report.directory state
      (saveErrorInfo reproducer counted times report state) reproducer := by
  unfold saveErrorInfo
  cases saves : saveLog times state.toLoggedRun report with
  | none =>
      have error := (save_log_none_iff.mp saves).1
      exact ⟨real, directory, number, file, ends, rfl, rfl, by simp [error, saveErrorCorpus],
        by simp [error, saveErrorCorpus], by simp, fun _ => error⟩
  | some logged =>
      obtain ⟨-, -, errors⟩ := save_log_cases saves
      refine ⟨real, directory, number, file, ends, ?_, ?_, ?_, ?_, ?_, by simp [free]⟩
      all_goals simp only [counts]
      · rfl
      · rfl
      · rfl
      · rfl
      · rw [errors]
        by_cases error : report.directory = .attackErr
        · simp [error, free]
        · simp [error]

theorem save_report_reported {times : UInt64} {pktRec : PktRecord} {report : LogReport}
    {state : ReportedRun Place} (free : state.looping = false)
    (real : report.directory ≠ .seed) : ∃ reproducer, Reported times pktRec report.directory state
      (saveReport times pktRec state report) reproducer := by
  unfold saveReport
  rw [if_neg (by simp [free])]
  cases place : report.directory with
  | seed => exact absurd place real
  | crash =>
      refine ⟨_, place ▸ save_error_info_reported free real place.symm (by simp [place]) rfl ?_ ?_⟩
      · simp only [String.append_assoc]
        exact underscored _
      · simp [place]
  | timeout =>
      refine ⟨_, place ▸ save_error_info_reported free real place.symm (by simp [place]) rfl ?_ ?_⟩
      · exact .inl rfl
      · simp [place]
  | attackErr =>
      refine ⟨_, place ▸ save_error_info_reported free real place.symm (by simp [place]) rfl ?_ ?_⟩
      · simp only [String.append_assoc]
        exact underscored _
      · simp [place]

theorem save_report_skipped {times : UInt64} {pktRec : PktRecord} {report : LogReport}
    {state : ReportedRun Place} (skipped : state.looping = true ∨ report.directory = .seed) :
    saveReport times pktRec state report = state := by
  unfold saveReport
  rcases skipped with loops | seed
  · rw [if_pos loops]
  · rw [seed]
    split_ifs <;> rfl

theorem save_reports_induct {times : UInt64} {pktRec : PktRecord}
    {property : ReportedRun Place → Prop}
    (kept : ∀ state next directory reproducer, state.looping = false →
      Reported times pktRec directory state next reproducer → property state → property next)
    (reports : List LogReport) {state : ReportedRun Place} (holds : property state) :
    property (reports.foldl (saveReport times pktRec) state) := by
  induction reports generalizing state with
  | nil => exact holds
  | cons report rest induction =>
      apply induction
      by_cases skipped : state.looping = true ∨ report.directory = .seed
      · rw [save_report_skipped skipped]
        exact holds
      · obtain ⟨loops, real⟩ := not_or.mp skipped
        have free := Bool.eq_false_of_not_eq_true loops
        obtain ⟨reproducer, reported⟩ := @save_report_reported Place times pktRec report state free
          real
        exact kept state _ _ _ free reported holds

theorem forall_added {property : Reproducer → Prop} {reproducers : List Reproducer}
    {added : Reproducer} (held : ∀ reproducer ∈ reproducers, property reproducer)
    (new : property added) : ∀ reproducer ∈ reproducers ++ [added], property reproducer := by
  intro reproducer member
  rcases List.mem_append.mp member with earlier | last
  · exact held reproducer earlier
  · rw [List.mem_singleton.mp last]
    exact new

end

/-- The files are the reproducers over what was there, and the counters count them, but
for the error at which the parent loops. -/
structure Listed (files : String → Option SeedFile) (errors : UInt64) (looping : Bool)
    (outputs : Outputs) : Prop where
  files : outputs.files =
    putAll files (outputs.reproducers.map fun reproducer => (reproducer.path, reproducer.file))
  delimited : ∀ reproducer ∈ outputs.reproducers, Delimited reproducer.ending
  crashes : outputs.crashCount = UInt64.ofNat (outputs.count .crash)
  timeouts : outputs.timeoutCount = UInt64.ofNat (outputs.count .timeout)
  errors : errors + (if looping then 1 else 0) = UInt64.ofNat (outputs.count .attackErr)

section

variable {Place : Type} {setup : Setup Place}

theorem Reported.counted {times : UInt64} {pktRec : PktRecord} {kind : Directory}
    {state next : ReportedRun Place} {reproducer : Reproducer}
    (reported : Reported times pktRec kind state next reproducer) (directory : Directory) :
    UInt64.ofNat (next.outputs.count directory) =
      UInt64.ofNat (state.outputs.count directory) +
        if kind = directory then 1 else 0 := by
  rw [Outputs.count, reported.reproducers, List.countP_append, List.countP_singleton,
    reported.placed, Outputs.count]
  by_cases same : kind = directory
  · simp [same]
  · simp [same]

theorem Listed.report {files : String → Option SeedFile} {times : UInt64} {pktRec : PktRecord}
    {kind : Directory} {state next : ReportedRun Place} {reproducer : Reproducer}
    (reported : Reported times pktRec kind state next reproducer)
    (listed : Listed files state.attackErrorCount false state.outputs) :
    Listed files next.attackErrorCount next.looping next.outputs := by
  refine ⟨?_, ?_, ?_, ?_, ?_⟩
  · rw [reported.files, reported.reproducers, List.map_append, put_all_append, ← listed.files]
    rfl
  · rw [reported.reproducers]
    exact forall_added listed.delimited reported.ends
  · rw [reported.crashes, reported.counted, listed.crashes]
  · rw [reported.timeouts, reported.counted, listed.timeouts]
  · rw [reported.errors, reported.counted, ← listed.errors]
    cases loops : next.looping with
    | false => simp
    | true => simp [reported.looping loops]

theorem report_step_cases {times : UInt64} {state next : ReportedRun Place}
    {action : ReportAction} (taken : reportStep setup times state action = some next) :
    (∃ base run, parentFree setup state base = true ∧ step setup state.run base = some run ∧
      next = (logReports setup state.run base).foldl (saveReport times state.run.pktRec)
        { state with run := run }) ∨
    next.run = state.run ∧ next.outputs = state.outputs ∧
      next.attackErrorCount = state.attackErrorCount ∧ next.looping = state.looping := by
  cases action with
  | run base =>
      obtain ⟨free, taken⟩ := Option.ite_none_right_eq_some.mp taken
      obtain ⟨run, moved, same⟩ := Option.map_eq_some_iff.mp taken
      exact .inl ⟨base, run, free, moved, same.symm⟩
  | write owner bytes =>
      obtain ⟨-, same⟩ := Option.ite_none_right_eq_some.mp taken
      cases same
      exact .inr ⟨rfl, rfl, rfl, rfl⟩
  | attackerEnds =>
      obtain ⟨-, same⟩ := Option.ite_none_right_eq_some.mp taken
      cases same
      exact .inr ⟨rfl, rfl, rfl, rfl⟩

theorem report_step_listed {times : UInt64} {files : String → Option SeedFile} :
    Preserves (reportStep setup times) fun state =>
      Listed files state.attackErrorCount state.looping state.outputs := by
  intro state action next taken listed
  rcases report_step_cases taken with ⟨base, run, -, -, rfl⟩ | ⟨-, outputs, errors, loops⟩
  · have kept (before after : ReportedRun Place) (kind : Directory) (reproducer : Reproducer)
        (free : before.looping = false)
        (reported : Reported times state.run.pktRec kind before after reproducer)
        (held : Listed files before.attackErrorCount before.looping before.outputs) :
        Listed files after.attackErrorCount after.looping after.outputs := by
      rw [free] at held
      exact held.report reported
    exact save_reports_induct kept _ listed
  · rw [outputs, errors, loops]
    exact listed

end

theorem paths_different {outputs : Outputs}
    (delimited : ∀ reproducer ∈ outputs.reproducers, Delimited reproducer.ending)
    (different : (outputs.reproducers.map Reproducer.key).Nodup) :
    (outputs.reproducers.map Reproducer.path).Nodup := by
  rw [List.Nodup, List.pairwise_map] at different ⊢
  apply different.imp_of_mem
  intro left right member other apart same
  obtain ⟨directory, number⟩ := corpus_path_inj (delimited left member) (delimited right other) same
  exact apart (Prod.ext directory number)

/-- The numbers used so far in a run: that of the run itself for a crash once the
target has been waited for, and for a timeout once the run has been cleaned up. -/
structure Numbered (times : UInt64) (reaped cleaned : Bool) (bound : Nat) (errors : UInt64)
    (looping : Bool) (outputs : Outputs) : Prop where
  different : (outputs.reproducers.map Reproducer.key).Nodup
  crash : ∀ reproducer ∈ outputs.reproducers, reproducer.directory = .crash →
    reproducer.number < times ∨ reproducer.number = times ∧ reaped = true
  timeout : ∀ reproducer ∈ outputs.reproducers, reproducer.directory = .timeout →
    reproducer.number < times ∨ reproducer.number = times ∧ cleaned = true
  error : ∀ reproducer ∈ outputs.reproducers, reproducer.directory = .attackErr →
    reproducer.number < errors ∨ reproducer.number = errors ∧ looping = true
  bounded : errors.toNat ≤ bound

theorem Numbered.mono {times : UInt64} {reaped cleaned later tidied : Bool} {bound more : Nat}
    {errors : UInt64} {looping : Bool} {outputs : Outputs}
    (numbered : Numbered times reaped cleaned bound errors looping outputs)
    (goesOn : reaped = true → later = true) (tidies : cleaned = true → tidied = true)
    (grows : bound ≤ more) : Numbered times later tidied more errors looping outputs :=
  ⟨numbered.different,
    fun other member place => (numbered.crash other member place).imp_right fun now =>
      ⟨now.1, goesOn now.2⟩,
    fun other member place => (numbered.timeout other member place).imp_right fun now =>
      ⟨now.1, tidies now.2⟩,
    numbered.error, Nat.le_trans numbered.bounded grows⟩

theorem key_added {reproducers : List Reproducer} {added : Reproducer}
    (different : (reproducers.map Reproducer.key).Nodup)
    (fresh : ∀ other ∈ reproducers, other.directory = added.directory →
      other.number ≠ added.number) :
    ((reproducers ++ [added]).map Reproducer.key).Nodup := by
  rw [List.map_append, List.nodup_append]
  refine ⟨different, List.nodup_singleton _, ?_⟩
  intro key member other last same
  obtain ⟨reproducer, inside, rfl⟩ := List.mem_map.mp member
  obtain rfl := List.mem_singleton.mp last
  exact fresh reproducer inside (congrArg Prod.fst same) (congrArg Prod.snd same)

section

variable {Place : Type} {setup : Setup Place}

theorem Reported.error_count {times : UInt64} {pktRec : PktRecord} {kind : Directory}
    {state next : ReportedRun Place} {reproducer : Reproducer}
    (reported : Reported times pktRec kind state next reproducer)
    (room : kind = .attackErr → state.attackErrorCount.toNat + 1 < 2 ^ 64) :
    next.attackErrorCount.toNat = state.attackErrorCount.toNat +
      if kind = .attackErr ∧ next.looping = false then 1 else 0 := by
  rw [reported.errors]
  split_ifs with counts
  · rw [UInt64.toNat_add]
    exact Nat.mod_eq_of_lt (room counts.1)
  · simp

/-- A number that is used in its directory is not used there again. -/
theorem Numbered.fresh {times : UInt64} {pktRec : PktRecord} {kind : Directory}
    {state next : ReportedRun Place} {reproducer : Reproducer} {reaped cleaned : Bool}
    {bound : Nat}
    (numbered : Numbered times reaped cleaned bound state.attackErrorCount false state.outputs)
    (reported : Reported times pktRec kind state next reproducer)
    (crash : kind = .crash → reaped = false) (timeout : kind = .timeout → cleaned = false)
    {other : Reproducer} (member : other ∈ state.outputs.reproducers)
    (same : other.directory = kind) : other.number ≠ reproducer.number := by
  rw [reported.number]
  cases kind with
  | seed => exact absurd rfl reported.real
  | crash =>
      rcases numbered.crash other member same with earlier | ⟨-, now⟩
      · exact UInt64.ne_of_lt earlier
      · simp [crash rfl] at now
  | timeout =>
      rcases numbered.timeout other member same with earlier | ⟨-, now⟩
      · exact UInt64.ne_of_lt earlier
      · simp [timeout rfl] at now
  | attackErr =>
      rcases numbered.error other member same with earlier | ⟨-, now⟩
      · exact UInt64.ne_of_lt earlier
      · cases now

/-- The number of an error is below the counter, unless the parent loops behind it. -/
theorem Numbered.report_error {times : UInt64} {pktRec : PktRecord} {kind : Directory}
    {state next : ReportedRun Place} {reproducer : Reproducer} {reaped cleaned : Bool}
    {bound : Nat}
    (numbered : Numbered times reaped cleaned bound state.attackErrorCount false state.outputs)
    (reported : Reported times pktRec kind state next reproducer)
    (room : kind = .attackErr → state.attackErrorCount.toNat + 1 < 2 ^ 64) :
    ∀ other ∈ next.outputs.reproducers, other.directory = .attackErr →
      other.number < next.attackErrorCount ∨
        other.number = next.attackErrorCount ∧ next.looping = true := by
  have grows := reported.error_count room
  rw [reported.reproducers]
  apply forall_added
  · intro other member place
    have before := (numbered.error other member place).resolve_right (by simp)
    left
    rw [UInt64.lt_iff_toNat_lt, grows]
    exact Nat.lt_of_lt_of_le (UInt64.lt_iff_toNat_lt.mp before) (Nat.le_add_right _ _)
  · intro here
    have number := reported.number
    rw [reported.placed] at here
    rw [if_pos here] at number
    rw [number]
    cases loops : next.looping with
    | true => exact .inr ⟨by simp [reported.errors, loops], rfl⟩
    | false =>
        left
        rw [UInt64.lt_iff_toNat_lt, grows, if_pos ⟨here, loops⟩]
        exact Nat.lt_succ_self _

theorem Numbered.report {times : UInt64} {pktRec : PktRecord} {kind : Directory}
    {state next : ReportedRun Place} {reproducer : Reproducer}
    {reaped cleaned later tidied : Bool} {bound more : Nat}
    (numbered : Numbered times reaped cleaned bound state.attackErrorCount false state.outputs)
    (reported : Reported times pktRec kind state next reproducer)
    (goesOn : reaped = true → later = true) (tidies : cleaned = true → tidied = true)
    (crash : kind = .crash → reaped = false ∧ later = true)
    (timeout : kind = .timeout → cleaned = false ∧ tidied = true)
    (room : bound + (if kind = .attackErr then 1 else 0) ≤ more) (few : more < 2 ^ 64) :
    Numbered times later tidied more next.attackErrorCount next.looping next.outputs := by
  have bounded := numbered.bounded
  have room' (error : kind = .attackErr) : state.attackErrorCount.toNat + 1 < 2 ^ 64 := by
    rw [if_pos error] at room
    omega
  have before := numbered.mono goesOn tidies (Nat.le_refl bound)
  refine ⟨?_, ?_, ?_, numbered.report_error reported room', ?_⟩
  · rw [reported.reproducers]
    apply key_added numbered.different
    intro other member same
    exact numbered.fresh reported (fun here => (crash here).1) (fun here => (timeout here).1)
      member (same.trans reported.placed)
  · rw [reported.reproducers]
    apply forall_added before.crash
    intro here
    rw [reported.placed] at here
    exact .inr ⟨by rw [reported.number, here]; rfl, (crash here).2⟩
  · rw [reported.reproducers]
    apply forall_added before.timeout
    intro here
    rw [reported.placed] at here
    exact .inr ⟨by rw [reported.number, here]; rfl, (timeout here).2⟩
  · rw [reported.error_count room']
    split_ifs with counts
    · rw [if_pos counts.1] at room
      omega
    · omega

def NumberedRun (times : UInt64) (reaped cleaned : Bool) (bound : Nat)
    (state : ReportedRun Place) : Prop :=
  Numbered times reaped cleaned bound state.attackErrorCount state.looping state.outputs

theorem save_report_numbered {times : UInt64} {pktRec : PktRecord} {report : LogReport}
    {state : ReportedRun Place} {reaped cleaned later tidied : Bool} {bound more : Nat}
    (numbered : NumberedRun times reaped cleaned bound state)
    (goesOn : reaped = true → later = true) (tidies : cleaned = true → tidied = true)
    (crash : report.directory = .crash → reaped = false ∧ later = true)
    (timeout : report.directory = .timeout → cleaned = false ∧ tidied = true)
    (room : bound + (if report.directory = .attackErr then 1 else 0) ≤ more)
    (few : more < 2 ^ 64) :
    NumberedRun times later tidied more (saveReport times pktRec state report) := by
  have same := numbered.mono goesOn tidies (Nat.le_trans (Nat.le_add_right _ _) room)
  by_cases skipped : state.looping = true ∨ report.directory = .seed
  · rw [save_report_skipped skipped]
    exact same
  · obtain ⟨loops, real⟩ := not_or.mp skipped
    have free := Bool.eq_false_of_not_eq_true loops
    rw [NumberedRun, free] at numbered
    obtain ⟨reproducer, reported⟩ := @save_report_reported Place times pktRec report state free real
    exact numbered.report reported goesOn tidies crash timeout room few

def reapedBy : Parent → Bool
  | .waitingForTarget => false
  | _ => true

def cleanedBy : Parent → Bool
  | .waitingForTarget | .cleaning _ => false
  | _ => true

/-- There is at most one error of the target and one of the attacker. -/
def errorsBy (bound : Nat) : Parent → Nat
  | .waitingForTarget => bound
  | .cleaning _ => bound + 1
  | _ => bound + 2

theorem target_reports_numbered {times : UInt64} {bound : Nat} {state : ReportedRun Place}
    (numbered : NumberedRun times false false bound state) (few : bound + 1 < 2 ^ 64)
    (pktRec : PktRecord) (status : WaitStatus) :
    NumberedRun times true false (bound + 1)
      (((targetSaves status).map fun directory => ⟨directory, .target, status⟩).foldl
        (saveReport times pktRec) state) := by
  have silent : NumberedRun times true false (bound + 1) state :=
    numbered.mono (fun _ => rfl) id (Nat.le_succ bound)
  have single (directory : Directory) (other : directory ≠ .timeout) :
      NumberedRun times true false (bound + 1)
        (saveReport times pktRec state ⟨directory, .target, status⟩) := by
    apply save_report_numbered numbered (fun _ => rfl) id (fun _ => ⟨rfl, rfl⟩) _ _ few
    · exact fun same => absurd same other
    · split_ifs <;> omega
  cases status with
  | signaled signal =>
      simp only [targetSaves]
      split_ifs
      · exact silent
      · exact silent
      · exact single .crash (by decide)
  | exited code =>
      simp only [targetSaves]
      split_ifs
      · exact single .crash (by decide)
      · exact single .attackErr (by decide)
      · exact silent

theorem clean_up_reports_numbered {times : UInt64} {bound : Nat} {state : ReportedRun Place}
    (numbered : NumberedRun times true false bound state) (few : bound + 1 < 2 ^ 64)
    (pktRec : PktRecord) (attackerStatus : WaitStatus) (fault : RunFault) :
    NumberedRun times true true (bound + 1)
      (((cleanUpSaves attackerStatus fault).map fun directory =>
          if directory = .timeout then ⟨directory, .target, .signaled sigkill⟩
          else ⟨directory, .attacker, attackerStatus⟩).foldl
        (saveReport times pktRec) state) := by
  unfold cleanUpSaves
  rw [List.map_append, List.foldl_append]
  have first : NumberedRun times true false (bound + 1)
      (((if attackerFailed attackerStatus then [Directory.attackErr] else []).map fun directory =>
          if directory = .timeout then ⟨directory, .target, .signaled sigkill⟩
          else ⟨directory, .attacker, attackerStatus⟩).foldl
        (saveReport times pktRec) state) := by
    split_ifs
    · have error : NumberedRun times true false (bound + 1)
          (saveReport times pktRec state ⟨.attackErr, .attacker, attackerStatus⟩) := by
        apply save_report_numbered numbered id id _ _ _ few
        · exact fun same => by cases same
        · exact fun same => by cases same
        · exact Nat.le_refl (bound + 1)
      exact error
    · exact numbered.mono id id (Nat.le_succ bound)
  generalize ((if attackerFailed attackerStatus then [Directory.attackErr] else []).map _).foldl
    _ _ = middle at first ⊢
  split_ifs
  · have last : NumberedRun times true true (bound + 1)
        (saveReport times pktRec middle ⟨.timeout, .target, .signaled sigkill⟩) := by
      apply save_report_numbered first id (fun _ => rfl) _ (fun _ => ⟨rfl, rfl⟩) _ few
      · exact fun same => by cases same
      · exact Nat.le_refl (bound + 1)
    exact last
  · exact first.mono id (fun _ => rfl) (Nat.le_refl _)

theorem report_step_numbered {times : UInt64} {bound : Nat} (few : bound + 2 < 2 ^ 64) :
    Preserves (reportStep setup times) fun state =>
      NumberedRun times (reapedBy state.run.parent) (cleanedBy state.run.parent)
        (errorsBy bound state.run.parent) state := by
  intro state action next taken numbered
  rcases report_step_cases taken with ⟨base, run, -, moved, rfl⟩ | ⟨same, outputs, errors, loops⟩
  · have numbered : NumberedRun times (reapedBy state.run.parent) (cleanedBy state.run.parent)
        (errorsBy bound state.run.parent) { state with run := run } := numbered
    rw [(save_reports_undisturbed times state.run.pktRec _ _).run]
    rcases step_reports moved with ⟨silent, parent⟩ |
      ⟨status, inHook, gone, rfl, waits, cleaning⟩ | ⟨fault, rfl, cleans, waiting⟩ |
      ⟨fault, rfl, waits, finished⟩
    · rw [silent, parent]
      exact numbered
    · rw [waits] at numbered
      rw [cleaning]
      simp only [logReports, gone]
      exact target_reports_numbered numbered (Nat.lt_of_succ_lt few) state.run.pktRec status
    · rw [cleans] at numbered
      rw [waiting]
      simp only [logReports, cleans]
      exact clean_up_reports_numbered numbered few state.run.pktRec setup.attackerStatus fault
    · rw [waits] at numbered
      rw [finished]
      exact numbered
  · rw [same, NumberedRun, outputs, errors, loops]
    exact numbered

def reportSaves (saves : List (Directory × SeedFile)) : List (Directory × SeedFile) :=
  saves.filter fun save => save.1 ≠ .seed

/-- The first of the saves have been made, and all of them unless the parent loops. -/
def Saved (front saves : List (Directory × SeedFile)) (state : ReportedRun Place) : Prop :=
  ∃ saved, state.outputs.reproducers.map Reproducer.save = front ++ saved ∧ saved <+: saves ∧
    (state.looping = false → saved = saves)

theorem save_report_saved {times : UInt64} {pktRec : PktRecord} {report : LogReport}
    {state : ReportedRun Place} {front saves : List (Directory × SeedFile)}
    (saved : Saved front saves state) :
    Saved front (saves ++ reportSaves (saveTo [report.directory] pktRec))
      (saveReport times pktRec state report) := by
  obtain ⟨made, same, isPrefix, all⟩ := saved
  by_cases loops : state.looping = true
  · rw [save_report_skipped (.inl loops)]
    exact ⟨made, same, isPrefix.trans (List.prefix_append _ _), fun free => by simp [loops] at free⟩
  · have free := Bool.eq_false_of_not_eq_true loops
    rw [all free] at same
    by_cases seed : report.directory = .seed
    · rw [save_report_skipped (.inr seed)]
      have nothing : reportSaves (saveTo [report.directory] pktRec) = [] := by
        simp [reportSaves, saveTo, seed]
      rw [nothing, List.append_nil]
      exact ⟨saves, same, List.prefix_refl _, fun _ => rfl⟩
    · obtain ⟨reproducer, reported⟩ := @save_report_reported Place times pktRec report state free
        seed
      have added : reportSaves (saveTo [report.directory] pktRec) = [reproducer.save] := by
        simp [reportSaves, saveTo, seed, Reproducer.save, reported.placed, reported.file]
      refine ⟨_, ?_, List.prefix_refl _, fun _ => rfl⟩
      rw [reported.reproducers, List.map_append, same, added, List.append_assoc]
      rfl

theorem save_reports_saved {times : UInt64} {pktRec : PktRecord} (reports : List LogReport)
    {state : ReportedRun Place} {front saves : List (Directory × SeedFile)}
    (saved : Saved front saves state) :
    Saved front (saves ++ reportSaves (saveTo (reports.map LogReport.directory) pktRec))
      (reports.foldl (saveReport times pktRec) state) := by
  induction reports generalizing state saves with
  | nil => simpa [saveTo, reportSaves] using saved
  | cons report rest induction =>
      have later := induction (@save_report_saved Place times pktRec report state front saves saved)
      rw [List.append_assoc, reportSaves, reportSaves, ← List.filter_append] at later
      exact later

theorem step_report_saves {run next : RunState Place} {action : Action}
    (taken : step setup run action = some next) :
    reportSaves next.saves = reportSaves run.saves ++
      reportSaves (saveTo ((logReports setup run action).map LogReport.directory) run.pktRec) := by
  have directories (fault : RunFault) :
      ((cleanUpSaves setup.attackerStatus fault).map fun directory =>
        if directory = .timeout then (⟨directory, .target, .signaled sigkill⟩ : LogReport)
        else ⟨directory, .attacker, setup.attackerStatus⟩).map LogReport.directory =
        cleanUpSaves setup.attackerStatus fault := by
    rw [List.map_map]
    conv_rhs => rw [← List.map_id (cleanUpSaves setup.attackerStatus fault)]
    apply List.map_congr_left
    intro directory _
    simp only [Function.comp_apply, id_eq]
    split_ifs <;> rfl
  cases step_turn taken with
  | finish =>
      simp only [logReports, List.map_nil, reportSaves, List.filter_append]
      split_ifs <;> simp [saveTo]
  | @waitForTarget status inHook _ gone =>
      simp [logReports, gone, reportSaves, List.filter_append, Function.comp_def]
  | recreate cleans _ =>
      simp only [logReports, cleans, directories, reportSaves, List.filter_append]
  | keep cleans _ =>
      simp only [logReports, cleans, directories, reportSaves, List.filter_append]
  | _ => simp [logReports, saveTo, reportSaves]

theorem report_step_saved {times : UInt64} {front : List (Directory × SeedFile)} :
    Preserves (reportStep setup times) fun state =>
      Saved front (reportSaves state.run.saves) state := by
  intro state action next taken saved
  rcases report_step_cases taken with ⟨base, run, -, moved, rfl⟩ | ⟨same, outputs, -, loops⟩
  · have before : Saved front (reportSaves state.run.saves) { state with run := run } := saved
    rw [(save_reports_undisturbed times state.run.pktRec _ _).run, step_report_saves moved]
    exact save_reports_saved _ before
  · rw [same, Saved, outputs, loops]
    exact saved

/-- The parent loops behind a process that is gone and has left an empty log. -/
def LoopsBehind (state : ReportedRun Place) : Prop :=
  state.looping = true → ∃ owner,
    state.writes owner = false ∧ (state.logs owner).content = []

theorem silent_stays {state next : ReportedRun Place} {action : Action} {owner : LogOwner}
    (moved : step setup state.run action = some next.run)
    (gone : next.attackerGone = state.attackerGone) (silent : state.writes owner = false) :
    next.writes owner = false := by
  rcases Bool.and_eq_false_iff.mp silent with stopped | left
  · simp [ReportedRun.writes, RunLogs.step_silent moved stopped]
  · simp only [ReportedRun.writes, gone, left, Bool.and_false]

theorem step_loops_behind {times : UInt64} :
    Preserves (reportStep setup times) LoopsBehind := by
  intro state action next taken behind
  cases report_step_turn taken with
  | @run base _ _ moved logs gone loops =>
      intro looping
      rw [logs]
      rcases loops.mp looping with before | missing
      · obtain ⟨owner, silent, empty⟩ := behind before
        exact ⟨owner, silent_stays moved gone silent, empty⟩
      · rcases step_reports moved with ⟨silent, -⟩ | ⟨_, _, ended, rfl, -, -⟩ |
          ⟨fault, rfl, cleans, waits⟩ | ⟨_, rfl, -, -⟩
        · simp [silent, Unreportable] at missing
        · exact ⟨.target, silent_stays moved gone (ended_silent ended),
            (target_unreportable_iff.mp missing).2⟩
        · exact ⟨.attacker, by simp [ReportedRun.writes, Writes, waits],
            ((clean_up_unreportable_iff cleans).mp missing).2⟩
        · simp [logReports, Unreportable] at missing
  | write writes =>
      intro looping
      obtain ⟨owner, silent, empty⟩ := behind looping
      exact ⟨owner, silent, (written_other writes silent).trans empty⟩
  | attackerEnds _ =>
      intro looping
      obtain ⟨owner, silent, empty⟩ := behind looping
      refine ⟨owner, ?_, empty⟩
      cases owner with
      | target => simpa [ReportedRun.writes] using silent
      | attacker => exact gone_silent rfl

end

theorem start_listed (files : String → Option SeedFile)
    (logFiles : String → Option (List UInt8)) :
    Listed files 0 false (Session.start files logFiles).outputs :=
  ⟨rfl, by simp [Session.start], rfl, rfl, rfl⟩

theorem run_listed {files : String → Option SeedFile} {session : Session} {trial : ReportedTrial}
    {state : ReportedRun trial.mode.Place} (run : runReported session trial = some state)
    (listed : Listed files session.attackErrorCount false session.outputs) :
    Listed files state.attackErrorCount state.looping state.outputs :=
  exec_preserves report_step_listed run listed

theorem run_numbered {session : Session} {trial : ReportedTrial}
    {state : ReportedRun trial.mode.Place} {bound : Nat}
    (run : runReported session trial = some state)
    (numbered : Numbered (trial.times session) false false bound session.attackErrorCount false
      session.outputs)
    (few : bound + 2 < 2 ^ 64) :
    NumberedRun (trial.times session) true true (bound + 2) state := by
  have reached := exec_preserves (report_step_numbered few) run numbered
  apply reached.mono (fun _ => rfl) (fun _ => rfl)
  cases state.run.parent <;> simp [errorsBy]

structure Ready (files : String → Option SeedFile) (count : Nat) (session : Session) : Prop where
  listed : Listed files session.attackErrorCount false session.outputs
  numbered : Numbered session.totalExecTimes true true (2 * count) session.attackErrorCount false
    session.outputs
  times : session.totalExecTimes.toNat ≤ count

theorem Ready.fuzz {files : String → Option SeedFile} {count : Nat} {session : Session}
    (ready : Ready files count session) (few : count < 2 ^ 62) :
    Numbered (session.totalExecTimes + 1) false false (2 * count) session.attackErrorCount false
      session.outputs := by
  have next : (session.totalExecTimes + 1).toNat = session.totalExecTimes.toNat + 1 := by
    have times := ready.times
    rw [UInt64.toNat_add]
    exact Nat.mod_eq_of_lt (by simp only [UInt64.reduceToNat]; omega)
  have later {number : UInt64} (earlier : number < session.totalExecTimes ∨
      number = session.totalExecTimes ∧ true = true) : number < session.totalExecTimes + 1 := by
    rw [UInt64.lt_iff_toNat_lt, next]
    rcases earlier with less | ⟨same, -⟩
    · exact Nat.lt_succ_of_lt (UInt64.lt_iff_toNat_lt.mp less)
    · rw [same]
      exact Nat.lt_succ_self _
  have numbered := ready.numbered
  exact ⟨numbered.different,
    fun other member place => .inl (later (numbered.crash other member place)),
    fun other member place => .inl (later (numbered.timeout other member place)), numbered.error,
    numbered.bounded⟩

theorem finished_free {session : Session} {trial : ReportedTrial}
    {state : ReportedRun trial.mode.Place} {fault : RunFault}
    (run : runReported session trial = some state) (finished : state.run.parent = .finished fault) :
    state.looping = false := by
  apply Bool.eq_false_of_not_eq_true
  intro loops
  have inside : LoopsInside state :=
    exec_preserves step_loops_inside run (by simp [LoopsInside, Session.begin])
  obtain ⟨other, cleans | waits⟩ := inside loops
  · simp [finished] at cleans
  · simp [finished] at waits

theorem run_once_ready {files : String → Option SeedFile} {count : Nat} {session next : Session}
    {trial : ReportedTrial} (taken : runOnce session trial = some next)
    (listed : Listed files session.attackErrorCount false session.outputs)
    (numbered : Numbered (trial.times session) false false (2 * count) session.attackErrorCount
      false session.outputs)
    (times : (trial.times session).toNat ≤ count + 1) (few : count < 2 ^ 62) :
    Ready files (count + 1) next := by
  obtain ⟨state, run, ended⟩ := Option.bind_eq_some_iff.mp taken
  have room : 2 * count + 2 < 2 ^ 64 := by omega
  split at ended
  · rename_i fault finished
    cases ended
    have free := finished_free run finished
    have after := run_listed run listed
    have numbers := run_numbered run numbered room
    rw [free] at after
    rw [NumberedRun, free] at numbers
    exact ⟨after, numbers, times⟩
  · cases ended

theorem times_of_fuzz {session : Session} {trial : ReportedTrial} {build : MutatorBuild.Build}
    {corpus : List BlePkt} (fuzzes : trial.mode = .fuzz build corpus) :
    trial.times session = session.totalExecTimes + 1 := by
  rw [ReportedTrial.times, fuzzes]

theorem fuzz_runs_ready {files : String → Option SeedFile} {count : Nat} {session next : Session}
    {trials : List ReportedTrial} (run : exec runOnce session trials = some next)
    (ready : Ready files count session)
    (fuzzes : ∀ trial ∈ trials, ∃ build corpus, trial.mode = .fuzz build corpus)
    (few : count + trials.length < 2 ^ 62) : Ready files (count + trials.length) next := by
  induction trials generalizing count session with
  | nil =>
      cases run
      exact ready
  | cons trial rest induction =>
      obtain ⟨middle, taken, run⟩ := exec_cons.mp run
      obtain ⟨build, corpus, mode⟩ := fuzzes trial List.mem_cons_self
      rw [List.length_cons] at few ⊢
      have times : (trial.times session).toNat ≤ count + 1 := by
        rw [times_of_fuzz mode, UInt64.toNat_add]
        exact Nat.le_trans (Nat.mod_le _ _) (Nat.succ_le_succ ready.times)
      have numbered := ready.fuzz (by omega)
      rw [← times_of_fuzz mode] at numbered
      have after := run_once_ready taken ready.listed numbered times (by omega)
      rw [show count + (rest.length + 1) = count + 1 + rest.length by omega]
      exact induction run after (fun other member => fuzzes other (List.mem_cons_of_mem _ member))
        (by omega)

theorem start_numbered (files : String → Option SeedFile)
    (logFiles : String → Option (List UInt8)) (times : UInt64) :
    Numbered times false false 0 0 false (Session.start files logFiles).outputs := by
  refine ⟨List.nodup_nil, ?_, ?_, ?_, Nat.le_refl 0⟩
  all_goals
    intro reproducer member
    cases member

theorem session_numbered {files : String → Option SeedFile}
    {logFiles : String → Option (List UInt8)} {trials : List ReportedTrial}
    {trial : ReportedTrial} {session : Session}
    (before : exec runOnce (Session.start files logFiles) trials = some session)
    (ordered : Ordered (trials ++ [trial])) (few : trials.length < 2 ^ 62) :
    Listed files session.attackErrorCount false session.outputs ∧
      Numbered (trial.times session) false false (2 * trials.length) session.attackErrorCount
        false session.outputs := by
  cases trials with
  | nil =>
      cases before
      exact ⟨start_listed files logFiles, start_numbered files logFiles _⟩
  | cons first rest =>
      obtain ⟨middle, taken, run⟩ := exec_cons.mp before
      have later (other : ReportedTrial) (member : other ∈ rest ++ [trial]) :
          ∃ build corpus, other.mode = .fuzz build corpus := ordered other member
      have times : (first.times (Session.start files logFiles)).toNat ≤ 0 + 1 := by
        unfold ReportedTrial.times
        split <;> simp [Session.start]
      have ready : Ready files 1 middle := run_once_ready taken (start_listed files logFiles)
        (start_numbered files logFiles _) times (by decide)
      rw [List.length_cons] at few ⊢
      have after := fuzz_runs_ready run ready
        (fun other member => later other (List.mem_append_left _ member)) (by omega)
      obtain ⟨build, corpus, mode⟩ := later trial (List.mem_append_right _ List.mem_cons_self)
      rw [times_of_fuzz mode, Nat.add_comm rest.length]
      exact ⟨after.listed, after.fuzz (by omega)⟩

def ShortCorpus (trial : ReportedTrial) : Prop :=
  ∀ build corpus, trial.mode = .fuzz build corpus → corpus.length ≤ maxPacketCountPerIter

theorem trial_keeps_bound {trial : ReportedTrial} (short : ShortCorpus trial) :
    ∃ limit ≤ maxPacketCountPerIter, KeepsBound trial.setup.server limit := by
  obtain ⟨mode, attackerStatus, queue, actions⟩ := trial
  cases mode with
  | initCorpus => exact ⟨_, Nat.le_refl _, init_keeps_bound⟩
  | fuzz build corpus =>
      have fits := short build corpus rfl
      exact ⟨_, fits, fuzz_keeps_bound build fits⟩

/-- In a session of whole runs and one more, nothing that was reported is replaced,
nothing else in the directory is touched, and the counters are right. What the last
run has reported is its record at some point, which loads as it was. A parent that
loops has the last file of an error left to count, and to report what follows it. -/
theorem reproducers_kept (files : String → Option SeedFile)
    (logFiles : String → Option (List UInt8)) (trials : List ReportedTrial)
    (trial : ReportedTrial) (session : Session) (state : ReportedRun trial.mode.Place)
    (before : exec runOnce (Session.start files logFiles) trials = some session)
    (run : runReported session trial = some state)
    (ordered : Ordered (trials ++ [trial])) (few : trials.length < 2 ^ 62) :
    (state.outputs.reproducers.map Reproducer.path).Nodup ∧
      (∀ reproducer ∈ state.outputs.reproducers,
        state.outputs.files reproducer.path = some reproducer.file) ∧
      (∀ path, path ∉ state.outputs.reproducers.map Reproducer.path →
        state.outputs.files path = files path) ∧
      state.outputs.crashCount = UInt64.ofNat (state.outputs.count .crash) ∧
      state.outputs.timeoutCount = UInt64.ofNat (state.outputs.count .timeout) ∧
      state.attackErrorCount + (if state.looping then 1 else 0) =
        UInt64.ofNat (state.outputs.count .attackErr) ∧
      (∃ saved, state.outputs.reproducers.map Reproducer.save =
          session.outputs.reproducers.map Reproducer.save ++ saved ∧
        saved <+: reportSaves state.run.saves ∧
        (state.looping = false → saved = reportSaves state.run.saves)) ∧
      (state.looping = true → ∃ owner,
        state.writes owner = false ∧ (state.logs owner).content = []) ∧
      (ShortCorpus trial → ∀ save ∈ state.run.saves, ∃ history place pktRec,
        Serves trial.setup.server history place pktRec ∧ history <+: state.run.answered ∧
          (mapSeed save.2).packets = pktRec.packets) := by
  obtain ⟨listed, numbered⟩ := session_numbered before ordered few
  have after := run_listed run listed
  have different := paths_different after.delimited (run_numbered run numbered (by omega)).different
  have names : (state.outputs.reproducers.map fun reproducer =>
      (reproducer.path, reproducer.file)).map Prod.fst =
        state.outputs.reproducers.map Reproducer.path := by
    rw [List.map_map]
    rfl
  refine ⟨different, ?_, ?_, after.crashes, after.timeouts, after.errors, ?_, ?_, ?_⟩
  · intro reproducer member
    rw [after.files]
    exact put_all_held (names ▸ different) (List.mem_map_of_mem member)
  · intro path unwritten
    rw [after.files]
    exact put_all_other (names ▸ unwritten)
  · apply exec_preserves report_step_saved run
    exact ⟨[], by simp [Session.begin], List.nil_prefix, fun _ => rfl⟩
  · exact exec_preserves step_loops_behind run (by simp [LoopsBehind, Session.begin])
  · intro short save member
    obtain ⟨limit, within, bound⟩ := trial_keeps_bound short
    obtain ⟨steps, bare⟩ := reported_run run
    obtain ⟨history, place, pktRec, serves, front, same⟩ := run_saves_served bare save member
    refine ⟨history, place, pktRec, serves, front, ?_⟩
    have bounded := Nat.le_trans (bound history place pktRec serves).1 within
    rw [same]
    exact (mmap_saved pktRec maxPacketCountPerIter (Nat.lt_of_le_of_lt bounded (by decide))).2

def crashingActions : List Action :=
  exchangeActions ++ [.hook shortReception, .die (.signaled 11), .waitForTarget, .cleanUp,
    .waitForInterceptor]

def crashingTrial : ReportedTrial :=
  ⟨.fuzz .random pairSeed, .signaled sigkill, [], crashingActions.map .run⟩

def silentActions : List Action := exchangeActions ++ [.die (.exited 255), .waitForTarget]

def silentTrial : ReportedTrial :=
  ⟨.fuzz .random pairSeed, .signaled sigkill, [], silentActions.map .run⟩

def loopsAfterTwo (state : ReportedRun silentTrial.mode.Place) : Bool :=
  state.looping && state.attackErrorCount == 0 &&
    state.outputs.reproducers.map Reproducer.directory == [.crash, .crash, .attackErr] &&
    state.outputs.reproducers.all fun reproducer =>
      (mapSeed reproducer.file).packets.length == 1

theorem silent_trial_loops : ((exec runOnce (Session.start (fun _ => none) fun _ => none)
    [crashingTrial, crashingTrial]).any fun session =>
      (runReported session silentTrial).any loopsAfterTwo) = true := by
  decide +kernel

/-- Two runs that crash in the same way are reported under two names, and the error
behind them under a third; behind that one the parent loops. -/
theorem two_crashes_and_error_kept : ∃ session state,
    exec runOnce (Session.start (fun _ => none) fun _ => none) [crashingTrial, crashingTrial] =
      some session ∧
    runReported session silentTrial = some state ∧ loopsAfterTwo state = true ∧
    (state.outputs.reproducers.map Reproducer.path).Nodup ∧
    state.attackErrorCount + (if state.looping then 1 else 0) =
      UInt64.ofNat (state.outputs.count .attackErr) := by
  obtain ⟨session, before, loops⟩ := (Option.any_eq_true _ _).mp silent_trial_loops
  obtain ⟨state, run, loops⟩ := (Option.any_eq_true _ _).mp loops
  have ordered : Ordered ([crashingTrial, crashingTrial] ++ [silentTrial]) := by
    intro trial member
    rcases List.mem_pair.mp member with rfl | rfl
    · exact ⟨.random, pairSeed, rfl⟩
    · exact ⟨.random, pairSeed, rfl⟩
  have kept := reproducers_kept (fun _ => none) (fun _ => none) [crashingTrial, crashingTrial]
    silentTrial session state before run ordered (by decide)
  exact ⟨session, state, before, run, loops, kept.1, kept.2.2.2.2.2.1⟩

end Blueman.ErrorReports
