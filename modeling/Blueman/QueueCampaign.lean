import Blueman.RunLockStep

/-!
# The message queue from run to run

A campaign is any number of runs, each of which starts with what the one before
has left in the message queue. The clean-up makes a new queue unless the target
ended normally or was killed by the alarm; the alarm can fire while a message is
on its way.
-/

namespace Blueman.QueueCampaign

open BlePacket HijackHook MutatorBuild PacketRecord RunOutcome Interceptor FuzzRun Execution
open LockStep RunLockStep

set_option autoImplicit false

/-- The alarm kills a target that waits in the hook while a message lies in the
queue, in a run whose attacker will be found without an error. -/
def Orphans {Place : Type} (setup : Setup Place) (state : RunState Place) (action : Action) : Prop :=
  action = .alarm ∧ (∃ reception, state.target = .waiting reception) ∧ state.queue ≠ [] ∧
    attackerFailed setup.attackerStatus = false

structure Trial where
  mode : Mode
  attackerStatus : WaitStatus
  queue : List Message
  actions : List Action

def Trial.setup (trial : Trial) : Setup trial.mode.Place := trial.mode.setup trial.attackerStatus

/-- No step of the run orphans a message. -/
def Trial.Clean (trial : Trial) : Prop :=
  Along (step trial.setup) (fun state action => ¬Orphans trial.setup state action)
    (.start trial.setup trial.queue) trial.actions

/-- The runs so far and the queue the next one will find. -/
inductive Campaign : List Trial → List Message → Prop
  | start : Campaign [] []
  | run {trials : List Trial} {queue : List Message} (trial : Trial)
      {state : RunState trial.mode.Place} {fault : RunFault} (earlier : Campaign trials queue)
      (same : trial.queue = queue)
      (taken : fuzzOne trial.setup trial.queue trial.actions = some state)
      (gone : state.parent = .finished fault) : Campaign (trials ++ [trial]) state.queue

section

variable {Place : Type} {setup : Setup Place}

/-- The run is over but for the interceptor, which has nothing to do. -/
structure Settled (state : RunState Place) : Prop where
  queue : state.queue = []
  target : Over state.target
  interceptor : ∀ phase, InterceptorAt phase state.interceptor

/-- The run has not been cleaned up, and a killed target leaves no message that
will stay. -/
structure Running (setup : Setup Place) (state : RunState Place) : Prop where
  phase : ∃ phase, InPhase state phase
  killed : ∀ inHook, state.target = .ended (.signaled sigkill) inHook →
    state.interceptor = .ended ∧ (state.queue = [] ∨ attackerFailed setup.attackerStatus = true)
  parent : state.parent = .waitingForTarget ∨ ∃ status inHook,
    state.target = .ended status inHook ∧ state.parent = .cleaning (faultOfStatus status)

def Tidy (setup : Setup Place) (state : RunState Place) : Prop :=
  Settled state ∨ Running setup state

theorem settled_turn {state next : RunState Place} {action : Action}
    (turn : Turn setup state action next) (settled : Settled state) : Settled next := by
  obtain ⟨queue, ⟨status, inHook, gone⟩, quiet⟩ := settled
  cases turn with
  | hook outside _ =>
      rw [gone] at outside
      cases outside
  | overflow outside _ =>
      rw [gone] at outside
      cases outside
  | consume waits _ =>
      rw [gone] at waits
      cases waits
  | die dies =>
      rw [gone] at dies
      cases dies
  | receive _ received =>
      rw [queue] at received
      cases received
  | answer holds _ =>
      have held := quiet .idle
      rw [holds] at held
      cases held
  | acknowledge answers =>
      have prepared := quiet .idle
      rw [answers] at prepared
      cases prepared
  | acknowledgeLast answers =>
      have prepared := quiet .idle
      rw [answers] at prepared
      cases prepared
  | spin _ => exact ⟨queue, ⟨_, _, gone⟩, fun _ => trivial⟩
  | crash _ => exact ⟨queue, ⟨_, _, gone⟩, fun _ => trivial⟩
  | finish _ => exact ⟨queue, ⟨_, _, gone⟩, fun _ => trivial⟩
  | alarm _ _ => exact ⟨queue, over_of_kill state.target sigkill, fun _ => trivial⟩
  | waitForTarget _ _ => exact ⟨queue, ⟨_, _, gone⟩, quiet⟩
  | recreate _ _ => exact ⟨rfl, ⟨_, _, gone⟩, fun _ => trivial⟩
  | keep _ _ => exact ⟨queue, ⟨_, _, gone⟩, quiet⟩
  | waitForInterceptor _ _ => exact ⟨queue, ⟨_, _, gone⟩, quiet⟩

/-- What is left when the queue is kept: the target ended normally, or it was
killed with nothing on its way. -/
theorem kept_settled {state : RunState Place} {fault : RunFault} (running : Running setup state)
    (cleans : state.parent = .cleaning fault)
    (passed : recreatesQueue setup.attackerStatus fault = false) :
    state.queue = [] ∧ Over state.target ∧ ∀ phase, InterceptorAt phase state.interceptor := by
  obtain ⟨phase, holds⟩ := running.phase
  obtain ⟨status, inHook, gone, cleaning⟩ := running.parent.resolve_left (by simp [cleans])
  rw [cleans] at cleaning
  cases cleaning
  simp only [recreatesQueue, Bool.or_eq_false_iff, beq_eq_false_iff_ne] at passed
  obtain ⟨⟨attacker, notError⟩, notCrash⟩ := passed
  cases fault : faultOfStatus status with
  | error => exact absurd fault notError
  | crash => exact absurd fault notCrash
  | timeout =>
      rw [fault_timeout_iff] at fault
      subst fault
      obtain ⟨ended, empty | failed⟩ := running.killed inHook gone
      · refine ⟨empty, ⟨_, _, gone⟩, ?_⟩
        rw [ended]
        exact fun _ => trivial
      · rw [attacker] at failed
        cases failed
  | none =>
      have idle : phase = .idle := by
        have ended := holds.target
        rw [gone] at ended
        cases status with
        | exited code =>
            cases inHook with
            | true => exact ended
            | false => exact ended
        | signaled signal =>
            simp only [faultOfStatus] at fault
            split_ifs at fault
      subst idle
      refine ⟨?_, ⟨_, _, gone⟩, fun phase => holds.interceptor.free (by simp) (by simp)⟩
      rcases holds.queue with carried | ⟨empty, -⟩
      · exact carried
      · exact empty

/-- A step that changes neither the target nor the parent, and not the queue of an
ended interceptor. -/
theorem Running.keep {state next : RunState Place} {action : Action} (running : Running setup state)
    (turn : Turn setup state action next) (target : next.target = state.target)
    (parent : next.parent = state.parent)
    (ended : state.interceptor = .ended →
      next.interceptor = .ended ∧ next.queue = state.queue) : Running setup next := by
  obtain ⟨phase, holds⟩ := running.phase
  obtain ⟨after, holdsAfter, -⟩ := turn_follows turn holds
  refine ⟨⟨after, holdsAfter⟩, ?_, ?_⟩
  · intro inHook gone
    rw [target] at gone
    obtain ⟨stopped, left⟩ := running.killed inHook gone
    obtain ⟨still, same⟩ := ended stopped
    rw [same]
    exact ⟨still, left⟩
  · rw [target, parent]
    exact running.parent

theorem Running.unreaped {state : RunState Place} (running : Running setup state)
    (alive : ¬Over state.target) : state.parent = .waitingForTarget :=
  running.parent.resolve_right fun ⟨status, inHook, gone, _⟩ => alive ⟨status, inHook, gone⟩

theorem Running.target_moves {state next : RunState Place} {action : Action}
    (running : Running setup state) (turn : Turn setup state action next)
    (alive : ¬Over state.target) (parent : next.parent = state.parent)
    (notKilled : ∀ inHook, next.target ≠ .ended (.signaled sigkill) inHook) :
    Running setup next := by
  obtain ⟨phase, holds⟩ := running.phase
  obtain ⟨after, holdsAfter, -⟩ := turn_follows turn holds
  refine ⟨⟨after, holdsAfter⟩, ?_, ?_⟩
  · intro inHook gone
    exact absurd gone (notKilled inHook)
  · rw [parent]
    exact .inl (running.unreaped alive)

theorem not_killed_by_itself {target ended : Target} {status : WaitStatus} {inHook : Bool}
    (dies : target.die status = some ended) : ended ≠ .ended (.signaled sigkill) inHook := by
  obtain ⟨alive, ⟨-, rfl⟩ | ⟨signal, -, rfl⟩⟩ := die_ends dies
  · intro killed
    cases killed
    exact alive rfl
  · intro killed
    cases killed
    exact alive rfl

theorem resumed_not_killed (reception : Reception) (ack : BlePkt) (inHook : Bool) :
    reception.resumed ack ≠ .ended (.signaled sigkill) inHook := by
  unfold Reception.resumed
  split
  · simp
  · simp

/-- The alarm finds a target that is over, or in the middle of nothing, or its
message in an orphan's place. -/
theorem alarm_running {state : RunState Place} (running : Running setup state)
    (allowed : ¬Orphans setup state .alarm) (alive : state.interceptor ≠ .ended) {inHook : Bool}
    (killed : state.target.kill sigkill = .ended (.signaled sigkill) inHook) :
    state.queue = [] ∨ attackerFailed setup.attackerStatus = true := by
  obtain ⟨phase, holds⟩ := running.phase
  have carried := holds.queue_of_active alive
  have target_phase := holds.target
  cases target : state.target with
  | running =>
      rw [target] at target_phase
      cases target_phase
      exact .inl carried
  | spinning =>
      rw [target] at target_phase
      cases target_phase
      exact .inl carried
  | ended status inHook =>
      rw [target] at killed
      cases killed
      exact (running.killed _ target).2
  | waiting reception =>
      by_contra neither
      obtain ⟨left, attacker⟩ := not_or.mp neither
      exact allowed ⟨rfl, ⟨reception, target⟩, left, Bool.eq_false_iff.mpr attacker⟩

theorem running_turn {state next : RunState Place} {action : Action}
    (turn : Turn setup state action next) (allowed : ¬Orphans setup state action)
    (running : Running setup state) : Tidy setup next := by
  have same := turn
  cases turn with
  | hook outside _ =>
      exact .inr (running.target_moves same (outside ▸ not_over_running) rfl (by simp))
  | overflow outside _ =>
      exact .inr (running.target_moves same (outside ▸ not_over_running) rfl (by simp))
  | @consume reception ack rest waits _ =>
      exact .inr (running.target_moves same (waits ▸ not_over_waiting reception) rfl
        (resumed_not_killed reception ack))
  | die dies =>
      right
      apply running.target_moves same _ rfl fun _ => not_killed_by_itself dies
      rintro ⟨status, inHook, gone⟩
      rw [gone] at dies
      cases dies
  | receive awaits _ => exact .inr (running.keep same rfl rfl (by simp [awaits]))
  | answer holds _ => exact .inr (running.keep same rfl rfl (by simp [holds]))
  | spin holds => exact .inr (running.keep same rfl rfl (by simp [holds]))
  | crash holds => exact .inr (running.keep same rfl rfl (by simp [holds]))
  | acknowledge answers => exact .inr (running.keep same rfl rfl (by simp [answers]))
  | acknowledgeLast answers => exact .inr (running.keep same rfl rfl (by simp [answers]))
  | finish finishes => exact .inr (running.keep same rfl rfl (by simp [finishes]))
  | alarm fuzzing alive =>
      right
      obtain ⟨phase, holds⟩ := running.phase
      obtain ⟨after, holdsAfter, -⟩ := turn_follows same holds
      refine ⟨⟨after, holdsAfter⟩, ?_, ?_⟩
      · intro inHook killed
        have left := alarm_running running allowed alive killed
        exact ⟨rfl, left⟩
      · rcases running.parent with waits | ⟨status, inHook, gone, cleans⟩
        · exact .inl waits
        · refine .inr ⟨status, inHook, ?_, cleans⟩
          change state.target.kill sigkill = _
          rw [gone]
          rfl
  | @waitForTarget status inHook waits gone =>
      right
      obtain ⟨phase, holds⟩ := running.phase
      obtain ⟨after, holdsAfter, -⟩ := turn_follows same holds
      exact ⟨⟨after, holdsAfter⟩, running.killed, .inr ⟨status, inHook, gone, rfl⟩⟩
  | recreate cleans _ =>
      obtain ⟨status, inHook, gone, -⟩ := running.parent.resolve_left (by simp [cleans])
      exact .inl ⟨rfl, ⟨status, inHook, gone⟩, fun _ => trivial⟩
  | keep cleans passed =>
      obtain ⟨empty, gone, quiet⟩ := kept_settled running cleans passed
      exact .inl ⟨empty, gone, quiet⟩
  | waitForInterceptor waits _ =>
      rcases running.parent with other | ⟨status, inHook, -, other⟩
      · rw [waits] at other
        cases other
      · rw [waits] at other
        cases other

/-- A message that nobody will receive any more, and that the clean-up keeps. -/
structure Orphaned (setup : Setup Place) (state : RunState Place) : Prop where
  queue : state.queue ≠ []
  target : ∃ inHook, state.target = .ended (.signaled sigkill) inHook
  interceptor : state.interceptor = .ended
  attacker : attackerFailed setup.attackerStatus = false
  fault : ∀ fault, state.parent = .cleaning fault → fault = .timeout

theorem step_orphaned : Preserves (step setup) (Orphaned setup) := by
  intro state action next taken orphaned
  obtain ⟨left, ⟨inHook, gone⟩, ended, attacker, timeout⟩ := orphaned
  cases step_turn taken with
  | waitForTarget _ target =>
      refine ⟨left, ⟨inHook, gone⟩, ended, attacker, ?_⟩
      intro fault cleans
      rw [gone] at target
      cases target
      cases cleans
      rfl
  | recreate cleans failed =>
      rw [timeout _ cleans, recreatesQueue, attacker] at failed
      cases failed
  | keep _ _ => exact ⟨left, ⟨inHook, gone⟩, ended, attacker, (by simp)⟩
  | waitForInterceptor _ _ => exact ⟨left, ⟨inHook, gone⟩, ended, attacker, (by simp)⟩
  | hook outside _ => simp [gone] at outside
  | overflow outside _ => simp [gone] at outside
  | consume waits _ => simp [gone] at waits
  | die dies =>
      rw [gone] at dies
      cases dies
  | receive awaits _ => simp [ended] at awaits
  | answer holds _ => simp [ended] at holds
  | spin holds => simp [ended] at holds
  | crash holds => simp [ended] at holds
  | acknowledge answers => simp [ended] at answers
  | acknowledgeLast answers => simp [ended] at answers
  | finish finishes => simp [ended] at finishes
  | alarm _ alive => exact absurd ended alive

theorem orphans_turn {state next : RunState Place} {action : Action} (tidy : Tidy setup state)
    (taken : step setup state action = some next) (orphans : Orphans setup state action) :
    Orphaned setup next := by
  obtain ⟨rfl, ⟨reception, waits⟩, left, attacker⟩ := orphans
  have alive : ¬Over state.target := waits ▸ not_over_waiting reception
  have running := tidy.resolve_left fun settled => alive settled.target
  cases step_turn taken with
  | alarm _ _ =>
      refine ⟨left, ⟨true, ?_⟩, rfl, attacker, ?_⟩
      · change state.target.kill sigkill = _
        rw [waits]
        rfl
      · intro fault cleans
        have waiting := running.unreaped alive
        change state.parent = _ at cleans
        rw [waiting] at cleans
        cases cleans

/-- A run that starts with an empty queue leaves it empty exactly when it orphans
no message. -/
theorem empty_after_iff {state : RunState Place} {fault : RunFault} {actions : List Action}
    (run : fuzzOne setup [] actions = some state) (gone : state.parent = .finished fault) :
    state.queue = [] ↔
      Along (step setup) (fun state action => ¬Orphans setup state action) (.start setup [])
        actions := by
  have start : Tidy setup (RunState.start setup []) := by
    refine .inr ⟨⟨.idle, start_in_phase setup⟩, ?_, .inl rfl⟩
    intro inHook killed
    cases killed
  have preserved (state : RunState Place) (action : Action) (next : RunState Place)
      (allowed : ¬Orphans setup state action) (taken : step setup state action = some next)
      (tidy : Tidy setup state) : Tidy setup next := by
    rcases tidy with settled | running
    · exact .inl (settled_turn (step_turn taken) settled)
    · exact running_turn (step_turn taken) allowed running
  constructor
  · intro empty
    by_contra forbidden
    have orphaned := exec_not_along preserved
      (fun state action next orphans taken tidy =>
        orphans_turn tidy taken (not_not.mp orphans))
      step_orphaned run start forbidden
    exact orphaned.queue empty
  · intro along
    rcases exec_preserves_along preserved run along start with settled | running
    · exact settled.queue
    · rcases running.parent with waits | ⟨status, inHook, -, cleans⟩
      · rw [gone] at waits
        cases waits
      · rw [gone] at cleans
        cases cleans

end

/-- No message survives from one run to the next exactly when no run orphans one. -/
theorem queue_empty_iff (trials : List Trial) (queue : List Message)
    (campaign : Campaign trials queue) :
    ((∀ trial ∈ trials, trial.queue = []) ∧ queue = []) ↔ ∀ trial ∈ trials, trial.Clean := by
  induction campaign with
  | start => simp
  | @run trials queue trial state fault earlier same taken gone induction =>
      have last (empty : trial.queue = []) : state.queue = [] ↔ trial.Clean := by
        unfold Trial.Clean
        rw [empty] at taken ⊢
        exact empty_after_iff taken gone
      simp only [List.forall_mem_append, List.forall_mem_singleton]
      constructor
      · rintro ⟨⟨before, empty⟩, after⟩
        exact ⟨induction.mp ⟨before, same ▸ empty⟩, (last empty).mp after⟩
      · rintro ⟨cleanBefore, clean⟩
        obtain ⟨before, empty⟩ := induction.mpr cleanBefore
        have emptyTrial := same.trans empty
        exact ⟨⟨before, emptyTrial⟩, (last emptyTrial).mpr clean⟩

def normalTrial : Trial where
  mode := .fuzz .random pairSeed
  attackerStatus := .signaled sigkill
  queue := []
  actions := pairActions ++ [.finish, .waitForTarget, .cleanUp, .waitForInterceptor]

def crashedTrial : Trial where
  mode := .fuzz .random pairSeed
  attackerStatus := .signaled sigkill
  queue := []
  actions := exchangeActions ++
    [.hook shortReception, .die (.signaled 11), .waitForTarget, .cleanUp, .waitForInterceptor]

def leftTidy (trial : Trial) : Bool :=
  (fuzzOne trial.setup trial.queue trial.actions).any fun state =>
    state.queue.isEmpty && state.parent matches .finished _

theorem normal_trial_tidy : leftTidy normalTrial = true := by decide +kernel

theorem crashed_trial_tidy : leftTidy crashedTrial = true := by decide +kernel

theorem Campaign.tidy {trials : List Trial} {trial : Trial} (earlier : Campaign trials [])
    (empty : trial.queue = []) (tidy : leftTidy trial = true) :
    Campaign (trials ++ [trial]) [] := by
  obtain ⟨state, run, facts⟩ := (Option.any_eq_true _ _).mp tidy
  obtain ⟨queue, gone⟩ := Bool.and_eq_true_iff.mp facts
  split at gone
  · rename_i finished
    rw [← List.isEmpty_iff.mp queue]
    exact .run trial earlier empty run finished
  · cases gone

theorem both_trials_clean : normalTrial.Clean ∧ crashedTrial.Clean := by
  have campaign : Campaign [normalTrial, crashedTrial] [] :=
    (Campaign.start.tidy rfl normal_trial_tidy).tidy rfl crashed_trial_tidy
  have clean := (queue_empty_iff [normalTrial, crashedTrial] [] campaign).mp (by
    refine ⟨?_, rfl⟩
    intro trial member
    rcases List.mem_pair.mp member with rfl | rfl
    · rfl
    · rfl)
  exact ⟨clean normalTrial List.mem_cons_self,
    clean crashedTrial (List.mem_cons_of_mem _ List.mem_cons_self)⟩

/-- The alarm fires when the target has sent a packet and the interceptor has not
received it yet. -/
def timedOutTrial : Trial where
  mode := .fuzz (.fieldAware MutatorFullStack2Frame.mixedConfig) [silence]
  attackerStatus := .signaled sigkill
  queue := []
  actions := [.hook shortReception, .alarm, .waitForTarget, .cleanUp, .waitForInterceptor]

theorem packet_survives_timeout : ¬∀ trials queue, Campaign trials queue → queue = [] := by
  intro never
  have campaign := Campaign.run timedOutTrial .start rfl rfl rfl
  exact absurd (never _ _ campaign) (List.cons_ne_nil _ _)

end Blueman.QueueCampaign
