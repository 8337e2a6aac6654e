import Blueman.Library.Execution
import Blueman.Library.SignalTables
import Blueman.RunOutcome

/-!
# Who handles a signal to the fuzzer

`setup_sighandler` gives three signals that ask a process to stop to
`sig_handler`, which kills the children and removes the shared memory segment and
the message queue. The simulator, the target and the attacker are forked and set
what they set for themselves. The interceptor is a clone that shares the table, so
what it sets before its loops is set for the fuzzer, which does not set it again.
Before the first run the pids of the children are 0, which names the fuzzer's own
process group.
-/

namespace Blueman.SignalHandlers

open Execution RunOutcome SignalTables

set_option autoImplicit false

abbrev sigint : Nat := 2
abbrev sigquit : Nat := 3
abbrev sigsegv : Nat := 11
abbrev sigalrm : Nat := 14
abbrev sigterm : Nat := 15

inductive Handler
  | sigHandler
  | timeouthandler
deriving DecidableEq

inductive Process
  | fuzzer
  | bsim
  | target
  | attacker
  | interceptor
deriving DecidableEq

abbrev Table := Processes Process Nat Handler

inductive Call
  | signal (sig : Nat) (disposition : Disposition Handler)
  | execv

/-- The disposition of `SIGKILL` cannot be set; the call fails. -/
def Call.perform (process : Process) (table : Table) : Call → Table
  | .signal sig disposition =>
      if sig = sigkill then table else table.setDisposition process sig disposition
  | .execv => table.execute process

def setupSighandler : List Call :=
  [.signal sigint (.caught .sigHandler), .signal sigsegv (.caught .sigHandler),
    .signal sigquit (.caught .sigHandler), .signal sigterm (.caught .sigHandler),
    .signal sigkill (.caught .sigHandler)]

/-- A forked child up to its new image. -/
def launch : List Call := [.signal sigint .ignored, .execv]

def runBsimPhy : List Call := launch
def runBleTarget : List Call := launch
def runBleAttacker : List Call := launch

/-- The interceptor up to its loops, and the alarm handler of the fuzzing one. -/
def runBleInterceptor (createInitCorpus : Bool) : List Call :=
  [.signal sigint .ignored, .signal sigkill .default, .signal sigterm .default,
    .signal sigquit .default] ++
    if createInitCorpus then [] else [.signal sigalrm (.caught .timeouthandler)]

/-- The variable `shm_id`, and whether its segment and the queue exist. -/
structure KernelObjects where
  shmId : Int
  segment : Bool
  messageQueue : Bool
deriving DecidableEq

def deleteMsgQueue (objects : KernelObjects) : KernelObjects :=
  { objects with messageQueue := false }

def createMsgQueue (objects : KernelObjects) : KernelObjects :=
  { objects with messageQueue := true }

inductive Place
  | betweenRuns
  | runBsimPhy
  | runBleTarget
  | runBleAttacker
  | runBleInterceptor
  | waitForTarget
  | cleanUp
  | waitForInterceptor
deriving DecidableEq

/-- What `fork` and `clone` return to the fuzzer. -/
structure ChildPid where
  value : Int
  positive : 0 < value

/-- `calls` holds what the children have still to call, `pids` the variables
`bsim_pid`, `target_pid`, `attacker_pid` and `interceptor_pid`. -/
structure State where
  table : Table
  calls : Process → List Call
  pids : Process → Int
  place : Place
  createInitCorpus : Bool
  objects : KernelObjects

inductive Action
  | fuzzOne (createInitCorpus : Bool)
  | spawn (pid : ChildPid)
  | call (process : Process)
  | exit (process : Process)
  | waitForTarget
  | cleanUp (recreates : Bool)
  | waitForInterceptor

def State.forkChild (child : Process) (calls : List Call) (place : Place) (pid : ChildPid)
    (state : State) : State :=
  { state with
    table := state.table.fork .fuzzer child
    calls := Function.update state.calls child calls
    pids := Function.update state.pids child pid.value
    place := place }

def spawn (pid : ChildPid) (state : State) : Option State :=
  match state.place with
  | .runBsimPhy => some (state.forkChild .bsim runBsimPhy .runBleTarget pid)
  | .runBleTarget => some (state.forkChild .target runBleTarget .runBleAttacker pid)
  | .runBleAttacker => some (state.forkChild .attacker runBleAttacker .runBleInterceptor pid)
  | .runBleInterceptor => some { state with
      table := state.table.cloneSighand .fuzzer .interceptor
      calls := Function.update state.calls .interceptor (runBleInterceptor state.createInitCorpus)
      pids := Function.update state.pids .interceptor pid.value
      place := .waitForTarget }
  | _ => none

def call (process : Process) (state : State) : Option State :=
  match state.table.tableOf process, state.calls process with
  | some _, next :: rest => some { state with
      table := next.perform process state.table
      calls := Function.update state.calls process rest }
  | _, _ => none

/-- How a child ends does not matter here; the fuzzer's own end is that of the run. -/
def exit (process : Process) (state : State) : Option State :=
  if process = .fuzzer then none else some { state with table := state.table.exit process }

def waitForTarget (state : State) : Option State :=
  if state.place = .waitForTarget ∧ state.table.tableOf .target = none then
    some { state with place := .cleanUp }
  else none

/-- The simulator and the attacker are killed and, after an error or a crash, the
interceptor, with the queue made again. -/
def killed (recreates : Bool) : List Process :=
  [.bsim, .attacker] ++ if recreates then [.interceptor] else []

def cleanUp (recreates : Bool) (state : State) : Option State :=
  if state.place = .cleanUp then
    some { state with
      table := (killed recreates).foldl (fun table process => table.exit process) state.table
      objects := if recreates then createMsgQueue (deleteMsgQueue state.objects)
        else state.objects
      place := .waitForInterceptor }
  else none

def waitForInterceptor (state : State) : Option State :=
  if state.place = .waitForInterceptor ∧ state.table.tableOf .interceptor = none then
    some { state with place := .betweenRuns }
  else none

def step (state : State) : Action → Option State
  | .fuzzOne createInitCorpus =>
      if state.place = .betweenRuns then
        some { state with
          pids := fun _ => -1
          place := .runBsimPhy
          createInitCorpus := createInitCorpus }
      else none
  | .spawn pid => spawn pid state
  | .call process => call process state
  | .exit process => exit process state
  | .waitForTarget => waitForTarget state
  | .cleanUp recreates => cleanUp recreates state
  | .waitForInterceptor => waitForInterceptor state

/-- After `setup_shm`, `create_msg_queue` and `setup_sighandler`, in a process that
has been started with some dispositions. The pids are static variables. -/
def start (inherited : Nat → Disposition Handler) (shmId : Nat) : State where
  table := setupSighandler.foldl (Call.perform .fuzzer) (.single .fuzzer inherited)
  calls _ := []
  pids _ := 0
  place := .betweenRuns
  createInitCorpus := false
  objects := ⟨shmId, true, true⟩

/-- `kill(pid, SIGKILL)` and the wait for the child, which is gone then. With pid 0
the signal goes to the process group of the fuzzer, and the call does not return. -/
def killChild (child : Process) (state : State) : Option State :=
  if state.pids child = -1 then some state
  else if state.pids child = 0 then none
  else some { state with table := state.table.exit child }

/-- None: the fuzzer has been killed in it. -/
def cleanupFuzzerEnv (state : State) : Option State :=
  (((killChild .bsim state).bind (killChild .attacker)).bind (killChild .interceptor)).map
    fun alone => { alone with
      objects := deleteMsgQueue
        (if alone.objects.shmId ≠ -1 then { alone.objects with segment := false }
          else alone.objects) }

/-- What is left after a signal to the fuzzer. The default ends it at once, and the
alarm handler removes nothing. -/
def deliver (sig : Nat) (state : State) : KernelObjects :=
  match state.table.disposition .fuzzer sig with
  | some (.caught .sigHandler) => ((cleanupFuzzerEnv state).getD state).objects
  | _ => state.objects

def interrupts : List Nat := [sigint, sigquit, sigterm]

/-- Each of the three signals goes to `sig_handler` and removes both objects. -/
structure CleansUp (state : State) : Prop where
  handled : ∀ sig ∈ interrupts,
    state.table.disposition .fuzzer sig = some (.caught .sigHandler)
  removes : ∀ sig ∈ interrupts,
    (deliver sig state).segment = false ∧ (deliver sig state).messageQueue = false

/-- The step is not a call of the interceptor. -/
def Spared (_ : State) : Action → Prop
  | .call process => process ≠ .interceptor
  | _ => True

/-- The clone is the one child with the fuzzer's table, and has made a first part of
its calls. -/
structure Guarded (state : State) : Prop where
  sharing : state.table.Sharing .fuzzer (· = .interceptor)
  waiting : state.calls .fuzzer = []
  pending : ∃ createInitCorpus, state.calls .interceptor <:+ runBleInterceptor createInitCorpus

def SameHandlers (before after : Table) : Prop :=
  ∀ sig, after.disposition .fuzzer sig = before.disposition .fuzzer sig

theorem perform_apart {process : Process} {table : Table} {call : Call}
    (sharing : table.Sharing .fuzzer (· = .interceptor)) (child : process ≠ .fuzzer)
    (forked : process ≠ .interceptor) :
    (call.perform process table).Sharing .fuzzer (· = .interceptor) ∧
      SameHandlers table (call.perform process table) := by
  cases call with
  | signal sig disposition =>
      simp only [Call.perform]
      split_ifs
      · exact ⟨sharing, fun _ => rfl⟩
      · refine ⟨sharing.set_disposition process sig disposition, fun asked => ?_⟩
        exact table.set_disposition_apart sig asked disposition (sharing.others process child forked)
  | execv =>
      exact ⟨sharing.execute child forked, table.execute_disposition child.symm⟩

theorem perform_shared {table : Table} {sig asked : Nat} {disposition : Disposition Handler}
    (sharing : table.Sharing .fuzzer (· = .interceptor))
    (alive : (table.tableOf .interceptor).isSome) :
    ((Call.signal sig disposition).perform .interceptor table).Sharing .fuzzer (· = .interceptor) ∧
      ((Call.signal sig disposition).perform .interceptor table).disposition .fuzzer asked =
        if asked = sig ∧ sig ≠ sigkill then some disposition
        else table.disposition .fuzzer asked := by
  have same : table.tableOf .interceptor = table.tableOf .fuzzer := by
    apply (sharing.shared .interceptor rfl).resolve_left
    intro none
    rw [none] at alive
    cases alive
  simp only [Call.perform]
  by_cases kill : sig = sigkill
  · simp only [kill, if_true, ne_eq, not_true_eq_false, and_false, if_false]
    exact ⟨sharing, trivial⟩
  · simp only [kill, if_false, ne_eq, not_false_eq_true, and_true]
    exact ⟨sharing.set_disposition _ _ _, table.set_disposition_shared sig asked disposition alive same⟩

structure Keeps (before after : State) : Prop where
  guarded : Guarded after
  handlers : SameHandlers before.table after.table
  calls : after.calls .interceptor = before.calls .interceptor ∨
    ∃ createInitCorpus, after.calls .interceptor = runBleInterceptor createInitCorpus
  shmId : after.objects.shmId = before.objects.shmId

theorem fork_keeps {state : State} (guarded : Guarded state) {child : Process}
    (forked : child ≠ .fuzzer ∧ child ≠ .interceptor) (calls : List Call) (place : Place)
    (pid : ChildPid) : Keeps state (state.forkChild child calls place pid) := by
  have others {process : Process} (different : process ≠ child) :
      (state.forkChild child calls place pid).calls process = state.calls process :=
    Function.update_of_ne different _ _
  constructor
  · constructor
    · exact guarded.sharing.fork .fuzzer forked.1 forked.2
    · rw [others forked.1.symm]
      exact guarded.waiting
    · rw [others forked.2.symm]
      exact guarded.pending
  · exact state.table.fork_disposition forked.1.symm
  · exact .inl (others forked.2.symm)
  · rfl

theorem spawn_keeps {state next : State} {pid : ChildPid} (taken : spawn pid state = some next)
    (guarded : Guarded state) : Keeps state next := by
  unfold spawn at taken
  split at taken
  · cases taken
    exact fork_keeps guarded (by decide) _ _ pid
  · cases taken
    exact fork_keeps guarded (by decide) _ _ pid
  · cases taken
    exact fork_keeps guarded (by decide) _ _ pid
  · cases taken
    have asked : Function.update state.calls .interceptor (runBleInterceptor state.createInitCorpus)
        .interceptor = runBleInterceptor state.createInitCorpus := Function.update_self _ _ _
    constructor
    · constructor
      · exact guarded.sharing.clone (by decide) rfl
      · have different : Process.fuzzer ≠ .interceptor := by decide
        dsimp only
        rw [Function.update_of_ne different]
        exact guarded.waiting
      · refine ⟨state.createInitCorpus, ?_⟩
        dsimp only
        exact asked.symm ▸ List.suffix_refl (runBleInterceptor state.createInitCorpus)
    · exact state.table.clone_disposition (by decide)
    · exact .inr ⟨state.createInitCorpus, asked⟩
    · rfl
  · cases taken

theorem exits_apart {table : Table} (sharing : table.Sharing .fuzzer (· = .interceptor))
    {children : List Process} (child : .fuzzer ∉ children) :
    (children.foldl (fun table process => table.exit process) table).Sharing .fuzzer
        (· = .interceptor) ∧
      SameHandlers table (children.foldl (fun table process => table.exit process) table) := by
  induction children generalizing table with
  | nil => exact ⟨sharing, fun _ => rfl⟩
  | cons process rest induction =>
      obtain ⟨different, others⟩ := List.ne_and_not_mem_of_not_mem_cons child
      obtain ⟨shares, same⟩ := induction (sharing.exit different.symm) others
      exact ⟨shares, fun sig => (same sig).trans (table.exit_disposition different sig)⟩

theorem clean_up_keeps {state next : State} {recreates : Bool}
    (taken : cleanUp recreates state = some next) (guarded : Guarded state) : Keeps state next := by
  have child : Process.fuzzer ∉ killed recreates := by
    cases recreates <;> decide
  obtain ⟨sharing, same⟩ := exits_apart guarded.sharing child
  unfold cleanUp at taken
  by_cases place : state.place = .cleanUp
  · rw [if_pos place] at taken
    cases taken
    refine ⟨⟨sharing, guarded.waiting, guarded.pending⟩, same, .inl rfl, ?_⟩
    cases recreates <;> rfl
  · rw [if_neg place] at taken
    cases taken

theorem call_keeps {state next : State} {process : Process}
    (taken : call process state = some next) (guarded : Guarded state)
    (spared : process ≠ .interceptor) : Keeps state next := by
  unfold call at taken
  split at taken
  · rename_i table nextCall rest alive calls
    cases taken
    have child : process ≠ .fuzzer := by
      rintro rfl
      rw [guarded.waiting] at calls
      cases calls
    obtain ⟨sharing, same⟩ := @perform_apart process state.table nextCall guarded.sharing child spared
    have others {other : Process} (different : other ≠ process) :
        Function.update state.calls process rest other = state.calls other :=
      Function.update_of_ne different _ _
    constructor
    · constructor
      · exact sharing
      · exact (others child.symm).trans guarded.waiting
      · dsimp only
        rw [others spared.symm]
        exact guarded.pending
    · exact same
    · exact .inl (others spared.symm)
    · rfl
  · cases taken

theorem spared_keeps {state next : State} {action : Action} (spared : Spared state action)
    (taken : step state action = some next) (guarded : Guarded state) : Keeps state next := by
  cases action with
  | fuzzOne createInitCorpus =>
      simp only [step] at taken
      split_ifs at taken
      cases taken
      exact ⟨⟨guarded.sharing, guarded.waiting, guarded.pending⟩, fun _ => rfl, .inl rfl, rfl⟩
  | spawn pid => exact spawn_keeps taken guarded
  | call process => exact call_keeps taken guarded spared
  | exit process =>
      simp only [step, exit] at taken
      split_ifs at taken with own
      cases taken
      exact ⟨⟨guarded.sharing.exit own, guarded.waiting, guarded.pending⟩,
        state.table.exit_disposition (Ne.symm own), .inl rfl, rfl⟩
  | waitForTarget =>
      simp only [step, waitForTarget] at taken
      split_ifs at taken
      cases taken
      exact ⟨⟨guarded.sharing, guarded.waiting, guarded.pending⟩, fun _ => rfl, .inl rfl, rfl⟩
  | cleanUp recreates => exact clean_up_keeps taken guarded
  | waitForInterceptor =>
      simp only [step, waitForInterceptor] at taken
      split_ifs at taken
      cases taken
      exact ⟨⟨guarded.sharing, guarded.waiting, guarded.pending⟩, fun _ => rfl, .inl rfl, rfl⟩

theorem interceptor_calls {createInitCorpus : Bool} {next : Call} {rest : List Call}
    (pending : next :: rest <:+ runBleInterceptor createInitCorpus) :
    ∃ sig disposition, next = .signal sig disposition ∧ (sig = sigint → disposition = .ignored) := by
  have member : next ∈ runBleInterceptor createInitCorpus := pending.mem List.mem_cons_self
  have signals : ∀ call ∈ runBleInterceptor createInitCorpus, ∃ sig disposition,
      call = .signal sig disposition ∧ (sig = sigint → disposition = .ignored) := by
    cases createInitCorpus <;> simp [runBleInterceptor, sigint, sigkill, sigterm, sigalrm]
  exact signals next member

theorem interceptor_call {state next : State} (taken : call .interceptor state = some next)
    (guarded : Guarded state) :
    Guarded next ∧ ∃ sig disposition rest,
      state.calls .interceptor = .signal sig disposition :: rest ∧
      (sig = sigint → disposition = .ignored) ∧
      ∀ asked, next.table.disposition .fuzzer asked =
        if asked = sig ∧ sig ≠ sigkill then some disposition
        else state.table.disposition .fuzzer asked := by
  unfold call at taken
  split at taken
  · rename_i table nextCall rest alive calls
    cases taken
    obtain ⟨createInitCorpus, pending⟩ := guarded.pending
    rw [calls] at pending
    obtain ⟨sig, disposition, rfl, ignores⟩ := interceptor_calls pending
    have living : (state.table.tableOf .interceptor).isSome := by
      rw [alive]
      rfl
    have shared (asked : Nat) :=
      @perform_shared state.table sig asked disposition guarded.sharing living
    refine ⟨⟨(shared 0).1, ?_, createInitCorpus, ?_⟩, sig, disposition, rest, calls, ignores,
      fun asked => (shared asked).2⟩
    · have different : Process.fuzzer ≠ .interceptor := by decide
      dsimp only
      rw [Function.update_of_ne different]
      exact guarded.waiting
    · dsimp only
      rw [Function.update_self]
      exact (List.suffix_cons _ _).trans pending
  · cases taken

/-- What holds until an interceptor makes its first call. -/
structure Handled (state : State) : Prop extends Guarded state where
  handled : ∀ sig ∈ interrupts,
    state.table.disposition .fuzzer sig = some (.caught .sigHandler)
  whole : state.calls .interceptor = [] ∨
    ∃ createInitCorpus, state.calls .interceptor = runBleInterceptor createInitCorpus
  shmId : state.objects.shmId ≠ -1

/-- What holds from then on. -/
structure Lost (state : State) : Prop extends Guarded state where
  ignored : state.table.disposition .fuzzer sigint = some .ignored

theorem start_handled (inherited : Nat → Disposition Handler) (shmId : Nat) :
    Handled (start inherited shmId) := by
  have sharing : (start inherited shmId).table.Sharing .fuzzer (· = .interceptor) := by
    have alone := sharing_single .fuzzer (· = Process.interceptor) inherited
    have settable : sigint ≠ sigkill ∧ sigsegv ≠ sigkill ∧ sigquit ≠ sigkill ∧
        sigterm ≠ sigkill := by decide
    simp only [start, setupSighandler, List.foldl_cons, List.foldl_nil, Call.perform, settable,
      if_false, if_true]
    exact (((alone.set_disposition _ _ _).set_disposition _ _ _).set_disposition _ _
      _).set_disposition _ _ _
  refine ⟨⟨sharing, rfl, false, List.nil_suffix⟩, ?_, .inl rfl, ?_⟩
  · intro sig member
    simp only [interrupts, List.mem_cons, List.not_mem_nil, or_false] at member
    rcases member with rfl | rfl | rfl
    all_goals rfl
  · change (shmId : Int) ≠ -1
    omega

/-- A run has set the pids, to -1 or to that of a child. -/
def Begun (state : State) : Prop := ∀ process, state.pids process ≠ 0

structure Unbegun (state : State) : Prop where
  place : state.place = .betweenRuns
  pids : ∀ process, state.pids process = 0
  segment : state.objects.segment = true

/-- The pids are set by `fuzz_one`, all at once or one with its child, and by nothing else. -/
theorem step_pids {state next : State} {action : Action} (taken : step state action = some next) :
    next.pids = state.pids ∨ next.pids = (fun _ => -1) ∨
      ∃ child pid, next.pids = Function.update state.pids child (ChildPid.value pid) := by
  cases action with
  | fuzzOne createInitCorpus =>
      simp only [step] at taken
      split_ifs at taken
      cases taken
      exact .inr (.inl rfl)
  | spawn pid =>
      simp only [step, spawn] at taken
      split at taken
      all_goals cases taken
      all_goals exact .inr (.inr ⟨_, pid, rfl⟩)
  | call process =>
      simp only [step, call] at taken
      split at taken
      all_goals cases taken
      exact .inl rfl
  | exit process =>
      simp only [step, exit] at taken
      split_ifs at taken
      cases taken
      exact .inl rfl
  | waitForTarget =>
      simp only [step, waitForTarget] at taken
      split_ifs at taken
      cases taken
      exact .inl rfl
  | cleanUp recreates =>
      obtain ⟨-, same⟩ := Option.ite_none_right_eq_some.mp taken
      cases same
      exact .inl rfl
  | waitForInterceptor =>
      simp only [step, waitForInterceptor] at taken
      split_ifs at taken
      cases taken
      exact .inl rfl

theorem begun_stays : Preserves step Begun := by
  intro state action next taken begun process
  rcases step_pids taken with same | unset | ⟨child, pid, set⟩
  · rw [same]
    exact begun process
  · rw [unset]
    exact Int.negSucc_ne_zero 0
  · rw [set]
    by_cases own : process = child
    · rw [own, Function.update_self]
      exact Int.ne_of_gt pid.positive
    · rw [Function.update_of_ne own]
      exact begun process

def Idle (action : Action) : Prop := ∀ createInitCorpus, action ≠ .fuzzOne createInitCorpus

theorem unbegun_idle (state : State) (action : Action) (next : State) (idle : Idle action)
    (taken : step state action = some next) (unbegun : Unbegun state) : Unbegun next := by
  obtain ⟨between, pids, segment⟩ := unbegun
  cases action with
  | fuzzOne createInitCorpus => exact absurd rfl (idle createInitCorpus)
  | spawn pid => simp [step, spawn, between] at taken
  | call process =>
      simp only [step, call] at taken
      split at taken
      · cases taken
        exact ⟨between, pids, segment⟩
      · cases taken
  | exit process =>
      simp only [step, exit] at taken
      split_ifs at taken
      cases taken
      exact ⟨between, pids, segment⟩
  | waitForTarget => simp [step, waitForTarget, between] at taken
  | cleanUp recreates => simp [step, cleanUp, between] at taken
  | waitForInterceptor => simp [step, waitForInterceptor, between] at taken

theorem unbegun_begins (state : State) (action : Action) (next : State) (begins : ¬Idle action)
    (taken : step state action = some next) (_ : Unbegun state) : Begun next := by
  simp only [Idle, ne_eq, not_forall, not_not] at begins
  obtain ⟨createInitCorpus, rfl⟩ := begins
  simp only [step] at taken
  split_ifs at taken
  cases taken
  exact fun _ => Int.negSucc_ne_zero 0

theorem kill_child_begun {state : State} (begun : Begun state) (child : Process) :
    ∃ next, killChild child state = some next ∧ next.pids = state.pids ∧
      next.objects = state.objects := by
  unfold killChild
  rw [if_neg (begun child)]
  split_ifs
  · exact ⟨state, rfl, rfl, rfl⟩
  · exact ⟨_, rfl, rfl, rfl⟩

theorem cleanup_begun {state : State} (begun : Begun state) :
    ∃ alone : State, alone.objects = state.objects ∧ cleanupFuzzerEnv state = some { alone with
      objects := deleteMsgQueue
        (if alone.objects.shmId ≠ -1 then { alone.objects with segment := false }
          else alone.objects) } := by
  obtain ⟨first, killedFirst, pidsFirst, objectsFirst⟩ := kill_child_begun begun .bsim
  have begunFirst : Begun first := fun process => pidsFirst ▸ begun process
  obtain ⟨second, killedSecond, pidsSecond, objectsSecond⟩ := kill_child_begun begunFirst .attacker
  have begunSecond : Begun second := fun process => pidsSecond ▸ begunFirst process
  obtain ⟨third, killedThird, -, objectsThird⟩ := kill_child_begun begunSecond .interceptor
  refine ⟨third, objectsThird.trans (objectsSecond.trans objectsFirst), ?_⟩
  simp only [cleanupFuzzerEnv, killedFirst, killedSecond, killedThird, Option.bind_some,
    Option.map_some]

theorem Handled.cleans_up {state : State} (holds : Handled state) (begun : Begun state) :
    CleansUp state := by
  refine ⟨holds.handled, ?_⟩
  intro sig member
  obtain ⟨alone, objects, cleaned⟩ := cleanup_begun begun
  have shmId : alone.objects.shmId ≠ -1 := objects ▸ holds.shmId
  simp only [deliver, holds.handled sig member, cleaned, Option.getD_some, if_pos shmId]
  exact ⟨rfl, rfl⟩

theorem Unbegun.not_cleans_up {state : State} (unbegun : Unbegun state) : ¬CleansUp state := by
  intro cleansUp
  have dies : cleanupFuzzerEnv state = none := by
    simp [cleanupFuzzerEnv, killChild, unbegun.pids]
  have removed := (cleansUp.removes sigint List.mem_cons_self).1
  simp only [deliver, cleansUp.handled sigint List.mem_cons_self, dies, Option.getD_none,
    unbegun.segment] at removed
  cases removed

theorem Lost.not_cleans_up {state : State} (lost : Lost state) : ¬CleansUp state := by
  intro cleansUp
  have caught := cleansUp.handled sigint List.mem_cons_self
  rw [lost.ignored] at caught
  cases caught

theorem handled_spared (state : State) (action : Action) (next : State)
    (spared : Spared state action) (taken : step state action = some next)
    (holds : Handled state) : Handled next := by
  have kept := spared_keeps spared taken holds.toGuarded
  refine ⟨kept.guarded, ?_, ?_, ?_⟩
  · intro sig member
    rw [kept.handlers]
    exact holds.handled sig member
  · rcases kept.calls with same | again
    · rw [same]
      exact holds.whole
    · exact .inr again
  · rw [kept.shmId]
    exact holds.shmId

theorem handled_unspared (state : State) (action : Action) (next : State)
    (forbidden : ¬Spared state action) (taken : step state action = some next)
    (holds : Handled state) : Lost next := by
  cases action with
  | call process =>
      have clone : process = .interceptor := not_not.mp forbidden
      subst clone
      obtain ⟨guarded, sig, disposition, rest, calls, ignores, sees⟩ :=
        interceptor_call taken holds.toGuarded
      have first : sig = sigint := by
        rcases holds.whole with none | ⟨createInitCorpus, whole⟩
        · rw [calls] at none
          cases none
        · rw [calls] at whole
          injection whole with head
          injection head
      refine ⟨guarded, ?_⟩
      rw [sees, if_pos ⟨first.symm, by rw [first]; decide⟩, ignores first]
  | _ => exact absurd trivial forbidden

theorem lost_stays : Preserves step Lost := by
  intro state action next taken lost
  by_cases spared : Spared state action
  · have kept := spared_keeps spared taken lost.toGuarded
    refine ⟨kept.guarded, ?_⟩
    rw [kept.handlers]
    exact lost.ignored
  · cases action with
    | call process =>
        have clone : process = .interceptor := not_not.mp spared
        subst clone
        obtain ⟨guarded, sig, disposition, rest, -, ignores, sees⟩ :=
          interceptor_call taken lost.toGuarded
        refine ⟨guarded, ?_⟩
        rw [sees]
        split_ifs with same
        · rw [ignores same.1.symm]
        · exact lost.ignored
    | _ => exact absurd trivial spared

/-- In every run of the fuzzer, over any number of its runs and however they end: an
interrupt cleans up exactly if a run has begun and no interceptor has made a call. -/
theorem interrupt_cleans_up_iff (inherited : Nat → Disposition Handler) (shmId : Nat)
    (actions : List Action) (state : State)
    (run : exec step (start inherited shmId) actions = some state) :
    CleansUp state ↔ (∃ createInitCorpus, .fuzzOne createInitCorpus ∈ actions) ∧
      Along step Spared (start inherited shmId) actions := by
  have starts := start_handled inherited shmId
  have unbegun : Unbegun (start inherited shmId) := ⟨rfl, fun _ => rfl, rfl⟩
  have idles : Along step (fun _ action => Idle action) (start inherited shmId) actions ↔
      ¬∃ createInitCorpus, .fuzzOne createInitCorpus ∈ actions := by
    rw [along_all_iff run]
    constructor
    · intro idle begins
      obtain ⟨createInitCorpus, member⟩ := begins
      exact idle _ member createInitCorpus rfl
    · intro none action member createInitCorpus same
      exact none ⟨createInitCorpus, same ▸ member⟩
  constructor
  · intro cleansUp
    constructor
    · by_contra none
      have waits : Unbegun state :=
        exec_preserves_along unbegun_idle run (idles.mpr none) unbegun
      exact waits.not_cleans_up cleansUp
    · by_contra forbidden
      exact (exec_not_along handled_spared handled_unspared lost_stays run starts
        forbidden).not_cleans_up cleansUp
  · intro spares
    obtain ⟨begins, along⟩ := spares
    have begun : Begun state :=
      exec_not_along unbegun_idle unbegun_begins begun_stays run unbegun
        (mt idles.mp (not_not.mpr begins))
    exact (exec_preserves_along handled_spared run along starts).cleans_up begun

def spawnAs (pid : Nat) : Action := .spawn ⟨pid.succ, Int.natCast_succ_pos pid⟩

def startedRun : List Action :=
  [.fuzzOne true, spawnAs 100, .call .bsim, .call .bsim, spawnAs 101, .call .target,
    .call .target, spawnAs 102, .call .attacker, .call .attacker, spawnAs 103]

def finishedRun : List Action :=
  [.call .interceptor, .call .interceptor, .call .interceptor, .call .interceptor, .exit .target,
    .waitForTarget, .cleanUp false, .exit .interceptor, .waitForInterceptor]

theorem started_run_cleans_up : ∃ state,
    exec step (start (fun _ => .default) 0) startedRun = some state ∧ CleansUp state := by
  refine ⟨_, rfl, (interrupt_cleans_up_iff (fun _ => .default) 0 startedRun _ rfl).mpr ?_⟩
  refine ⟨⟨true, List.mem_cons_self⟩, ?_⟩
  simp [startedRun, spawnAs, Along, Spared]

/-- After one run an interrupt is ignored, and the two other signals end the fuzzer
with both objects left; before the first run the handler does. -/
theorem finished_run_leaks :
    (∃ state, exec step (start (fun _ => .default) 0) (startedRun ++ finishedRun) = some state ∧
      state.place = .betweenRuns ∧
      state.table.disposition .fuzzer sigint = some .ignored ∧
      state.table.disposition .fuzzer sigquit = some .default ∧
      state.table.disposition .fuzzer sigterm = some .default ∧
      deliver sigterm state = ⟨0, true, true⟩ ∧ ¬CleansUp state) ∧
    ∃ state, exec step (start (fun _ => .default) 0) [] = some state ∧
      state.table.disposition .fuzzer sigint = some (.caught .sigHandler) ∧
      deliver sigint state = ⟨0, true, true⟩ ∧ ¬CleansUp state := by
  constructor
  · refine ⟨_, rfl, rfl, rfl, rfl, rfl, rfl, ?_⟩
    intro cleansUp
    have caught := cleansUp.handled sigint List.mem_cons_self
    cases caught
  · refine ⟨_, rfl, rfl, rfl, ?_⟩
    intro cleansUp
    have removed := (cleansUp.removes sigint List.mem_cons_self).1
    cases removed

end Blueman.SignalHandlers
