import Blueman.Divisors
import Blueman.ErrorLoop
import Blueman.RunLockStep

/-!
# Whether a run can still end

`fuzz_one` returns when the target and then the interceptor have ended. While
fuzzing the alarm ends both, but it goes with the interceptor; while collecting
the first seed there is no alarm. Here are the states from which a run can no
longer end, unless a signal from outside ends a target that is in the hook.
-/

namespace Blueman.RunLiveness

open LittleEndian ByteMachine BlePacket HijackHook MutateStrategy Mutator MutatorBuild
open PacketRecord RunOutcome Interceptor FuzzRun Execution LockStep RunLockStep Divisors
open RunReports ErrorLoop
open RunLogs (Reaped Writes)

set_option autoImplicit false

section

variable {Place : Type} {setup : Setup Place}

theorem quiet_of_ne {state : RunState Place} {action : Action}
    (other : ∀ status, action ≠ .die status) : Quiet state action :=
  ⟨fun status same => absurd same (other status), fun status same => absurd same (other status)⟩

theorem waiting_finishes {state : RunState Place} {fault : RunFault}
    (waits : state.parent = .waitingForInterceptor fault) (gone : state.interceptor = .ended) :
    EndsQuietly setup state := by
  have taken : step setup state .waitForInterceptor =
      some { state with parent := .finished fault } := by
    simp only [step, waitForInterceptor, waits, gone]
  exact can_reach_step _ taken (quiet_of_ne (by simp)) (can_reach_here ⟨fault, rfl⟩)

theorem cleaned_up {state : RunState Place} {fault : RunFault}
    (cleans : state.parent = .cleaning fault) :
    ∃ next, step setup state .cleanUp = some next ∧ next.parent = .waitingForInterceptor fault ∧
      (recreatesQueue setup.attackerStatus fault = true ∨ state.interceptor = .ended →
        next.interceptor = .ended) := by
  simp only [step, cleanUp, cleans]
  refine ⟨_, rfl, ?_⟩
  split_ifs with recreated
  · exact ⟨rfl, fun _ => rfl⟩
  · simp [recreated]

theorem cleaning_finishes {state : RunState Place} {fault : RunFault}
    (cleans : state.parent = .cleaning fault)
    (gone : recreatesQueue setup.attackerStatus fault = true ∨ state.interceptor = .ended) :
    EndsQuietly setup state := by
  obtain ⟨next, taken, waits, ended⟩ := @cleaned_up Place setup state fault cleans
  exact can_reach_step _ taken (quiet_of_ne (by simp)) (waiting_finishes waits (ended gone))

theorem target_reaped {state : RunState Place} {status : WaitStatus} {inHook : Bool}
    (waits : state.parent = .waitingForTarget) (ended : state.target = .ended status inHook) :
    step setup state .waitForTarget = some { state with
      parent := .cleaning (faultOfStatus status)
      saves := state.saves ++ saveTo (targetSaves status) state.pktRec } := by
  simp only [step, waitForTarget, waits, ended]

theorem gone_finishes {state : RunState Place} (ended : Over state.target)
    (gone : state.interceptor = .ended) : EndsQuietly setup state := by
  obtain ⟨status, inHook, ended⟩ := ended
  cases parent : state.parent with
  | waitingForTarget =>
      exact can_reach_step _ (target_reaped parent ended) (quiet_of_ne (by simp))
        (cleaning_finishes rfl (.inr gone))
  | cleaning fault => exact cleaning_finishes parent (.inr gone)
  | waitingForInterceptor fault => exact waiting_finishes parent gone
  | finished fault => exact can_reach_here ⟨fault, parent⟩

theorem leaving_finishes {state : RunState Place} (ended : Over state.target)
    (leaves : state.interceptor = .finishing ∨ state.interceptor = .ended) :
    EndsQuietly setup state := by
  rcases leaves with finishing | gone
  · have taken : step setup state .finish = some { state with
        interceptor := .ended
        saves := state.saves ++
          saveTo (if setup.createInitCorpus then [.seed] else []) state.pktRec } := by
      simp only [step, finish, finishing]
    exact can_reach_step _ taken (quiet_of_ne (by simp)) (gone_finishes ended rfl)
  · exact gone_finishes ended gone

theorem alarm_finishes {state : RunState Place} (fuzzing : setup.createInitCorpus = false)
    (alive : state.interceptor ≠ .ended) : EndsQuietly setup state := by
  have taken : step setup state .alarm =
      some { state with target := state.target.kill sigkill, interceptor := .ended } := by
    simp only [step, timeoutHandler, fuzzing]
    cases interceptor : state.interceptor with
    | ended => exact absurd interceptor alive
    | _ => rfl
  exact can_reach_step _ taken (quiet_of_ne (by simp))
    (gone_finishes (over_of_kill state.target sigkill) rfl)

theorem running_dies {state : RunState Place} {code : UInt8} (outside : state.target = .running)
    (tame : .attackErr ∉ targetSaves (.exited code))
    (later : EndsQuietly setup { state with target := .ended (.exited code) false }) :
    EndsQuietly setup state := by
  have taken : step setup state (.die (.exited code)) =
      some { state with target := .ended (.exited code) false } := by
    simp [step, die, outside, Target.die]
  refine can_reach_step _ taken ⟨fun _ _ => outside, ?_⟩ later
  intro status same
  cases same
  exact tame

theorem consumed_finishes {state : RunState Place} {reception : Reception} {ack : BlePkt}
    {rest : List Message} (waits : state.target = .waiting reception)
    (received : msgrcv .recvPktAck state.queue = some (ack, rest))
    (later : EndsQuietly setup { state with
      target := reception.resumed ack
      queue := rest
      consumed := state.consumed ++ [ack] }) : EndsQuietly setup state := by
  have taken : step setup state .consume = some { state with
      target := reception.resumed ack
      queue := rest
      consumed := state.consumed ++ [ack] } := by
    simp only [step, consume, waits, received, Option.map_some]
  exact can_reach_step _ taken (quiet_of_ne (by simp)) later

theorem resumed_running_or_over (reception : Reception) (ack : BlePkt) :
    reception.resumed ack = .running ∨ reception.resumed ack = .ended (.exited 0) true := by
  unfold Reception.resumed
  split
  · exact .inl rfl
  · exact .inr rfl

/-- The parent waits for a target that waits in the hook, or loops there, and the
interceptor is gone, and the alarm with it. -/
structure Abandoned (state : RunState Place) : Prop where
  parent : state.parent = .waitingForTarget
  interceptor : state.interceptor = .ended
  target : state.target = .spinning ∨
    (∃ reception, state.target = .waiting reception) ∧ msgrcv .recvPktAck state.queue = none

theorem abandoned_stays {state next : RunState Place} {action : Action}
    (unaided : Unaided state action) (taken : step setup state action = some next)
    (abandoned : Abandoned state) : Abandoned next := by
  obtain ⟨parent, gone, target⟩ := abandoned
  have inHook : state.target ≠ .running ∧ ¬Over state.target := by
    rcases target with spins | ⟨⟨reception, waits⟩, -⟩
    · simp [spins, Over]
    · simp [waits, Over]
  cases step_turn taken with
  | hook outside _ => exact absurd outside inHook.1
  | overflow outside _ => exact absurd outside inHook.1
  | consume waits received =>
      rcases target with spins | ⟨-, nothing⟩
      · simp [spins] at waits
      · simp [nothing] at received
  | die _ => exact absurd (unaided _ rfl) inHook.1
  | receive awaits _ => simp [gone] at awaits
  | answer holds _ => simp [gone] at holds
  | spin holds => simp [gone] at holds
  | crash holds => simp [gone] at holds
  | acknowledge answers => simp [gone] at answers
  | acknowledgeLast answers => simp [gone] at answers
  | finish finishes => simp [gone] at finishes
  | alarm _ alive => exact absurd gone alive
  | waitForTarget _ ended => exact absurd ⟨_, _, ended⟩ inHook.2
  | recreate cleans _ => simp [parent] at cleans
  | keep cleans _ => simp [parent] at cleans
  | waitForInterceptor waits _ => simp [parent] at waits

theorem over_of_die {target ended : Target} {status : WaitStatus}
    (dies : target.die status = some ended) : Over ended := by
  obtain ⟨-, ⟨-, rfl⟩ | ⟨signal, -, rfl⟩⟩ := die_ends dies
  · exact ⟨_, _, rfl⟩
  · exact ⟨_, _, rfl⟩

theorem run_reaped {queue : List Message} {state : RunState Place} {actions : List Action}
    (run : fuzzOne setup queue actions = some state) : Reaped state :=
  exec_preserves (fun _ _ _ => RunLogs.step_reaped) run (.inl rfl)

theorem fuzz_finishes (fuzzing : setup.createInitCorpus = false) {state : RunState Place}
    (reaped : Reaped state) (free : ¬Abandoned state) : EndsQuietly setup state := by
  by_cases gone : state.interceptor = .ended
  · have exits (after : RunState Place) (outside : after.target = .running)
        (same : after.interceptor = .ended) : EndsQuietly setup after :=
      @running_dies Place setup after 0 outside (by decide) (gone_finishes ⟨_, _, rfl⟩ same)
    cases target : state.target with
    | running => exact exits state target gone
    | spinning =>
        have parent := reaped.resolve_right (by simp [target, Writes])
        exact absurd ⟨parent, gone, .inl target⟩ free
    | waiting reception =>
        have parent := reaped.resolve_right (by simp [target, Writes])
        cases received : msgrcv .recvPktAck state.queue with
        | none => exact absurd ⟨parent, gone, .inr ⟨⟨reception, target⟩, received⟩⟩ free
        | some message =>
            apply consumed_finishes target received
            rcases resumed_running_or_over reception message.1 with outside | ended
            · exact exits _ outside gone
            · exact gone_finishes ⟨_, _, ended⟩ gone
    | ended status inHook => exact gone_finishes ⟨_, _, target⟩ gone
  · exact alarm_finishes fuzzing gone

def LeavesMarked (server : Server Place) : Prop :=
  ∀ place pktRec request input ack added,
    server.react place pktRec request input = .answers ack added none → ack.mutated = 2

/-- An interceptor that leaves its loops gives the target the answer to exit on,
unless the target is over. -/
structure Departs (state : RunState Place) : Prop where
  marked : ∀ ack, state.interceptor = .answering ack none → ack.mutated = 2
  left : state.interceptor = .finishing ∨ state.interceptor = .ended →
    Over state.target ∨ ∃ reception ack, state.target = .waiting reception ∧
      state.queue = [⟨.recvPktAck, ack⟩] ∧ ack.mutated = 2

theorem departs_inside {state : RunState Place}
    (inside : ∀ ack, state.interceptor ≠ .answering ack none)
    (here : state.interceptor ≠ .finishing ∧ state.interceptor ≠ .ended) : Departs state :=
  ⟨fun ack same => absurd same (inside ack), fun leaves => by
    rcases leaves with finishing | gone
    · exact absurd finishing here.1
    · exact absurd gone here.2⟩

theorem departs_over {state : RunState Place} (ended : Over state.target)
    (inside : ∀ ack, state.interceptor ≠ .answering ack none) : Departs state :=
  ⟨fun ack same => absurd same (inside ack), fun _ => .inl ended⟩

theorem Departs.same {state next : RunState Place} (departs : Departs state)
    (interceptor : next.interceptor = state.interceptor) (queue : next.queue = state.queue)
    (target : next.target = state.target ∨ Over next.target) : Departs next := by
  constructor
  · rw [interceptor]
    exact departs.marked
  · rw [interceptor, queue]
    intro leaves
    rcases target with same | ended
    · rw [same]
      exact departs.left leaves
    · exact .inl ended

/-- A turn ends the interceptor while the target is alive. -/
structure Deserts (state : RunState Place) (action : Action) (next : RunState Place) : Prop where
  turn : ∃ input, action = .process input
  died : next.interceptor = .ended
  alive : ¬Over state.target

theorem answer_awaited {state : RunState Place} {phase : Exchange} {ack : BlePkt}
    {following : Option Place} (holds : InPhase state phase)
    (answers : state.interceptor = .answering ack following) :
    state.queue = [] ∧ (Over state.target ∨ ∃ reception, state.target = .waiting reception) := by
  have carried := holds.queue_of_active (by simp [answers])
  have prepared : phase = .prepared ack := by
    have answering := holds.interceptor
    rwa [answers] at answering
  subst prepared
  refine ⟨carried, ?_⟩
  have placed := holds.target
  cases target : state.target with
  | running => simp [target, TargetAt] at placed
  | spinning => simp [target, TargetAt] at placed
  | waiting reception => exact .inr ⟨reception, rfl⟩
  | ended status inHook => exact .inl ⟨status, inHook, rfl⟩

theorem step_departs (marked : LeavesMarked setup.server) {state next : RunState Place}
    {action : Action} {phase : Exchange} (taken : step setup state action = some next)
    (holds : InPhase state phase) (departs : Departs state)
    (serves : ¬Deserts state action next) : Departs next := by
  cases step_turn taken with
  | hook outside _ =>
      constructor
      · exact departs.marked
      · intro leaves
        rcases departs.left leaves with ended | ⟨reception, ack, waits, -⟩
        · exact absurd (outside ▸ ended) not_over_running
        · simp [outside] at waits
  | overflow outside _ =>
      constructor
      · exact departs.marked
      · intro leaves
        rcases departs.left leaves with ended | ⟨reception, ack, waits, -⟩
        · exact absurd (outside ▸ ended) not_over_running
        · simp [outside] at waits
  | @consume reception ack rest waits received =>
      constructor
      · exact departs.marked
      · intro leaves
        left
        rcases departs.left leaves with ended | ⟨other, last, -, queue, ending⟩
        · exact absurd (waits ▸ ended) (not_over_waiting reception)
        · rw [queue] at received
          cases received
          exact ⟨_, _, resumed_exits reception ending⟩
  | die dies => exact departs.same rfl rfl (.inr (over_of_die dies))
  | receive => exact departs_inside (by simp) (by simp)
  | @answer place pkt ack input pktRec following held reacts =>
      constructor
      · intro other same
        cases same
        exact marked place state.pktRec pkt input ack pktRec reacts
      · simp
  | spin => exact departs_inside (by simp) (by simp)
  | crash held =>
      have ended : Over state.target := by
        by_contra alive
        exact serves ⟨⟨_, rfl⟩, rfl, alive⟩
      exact departs_over ended (by simp)
  | acknowledge => exact departs_inside (by simp) (by simp)
  | @acknowledgeLast ack answers =>
      constructor
      · simp
      · intro _
        obtain ⟨empty, ended | ⟨reception, waits⟩⟩ := answer_awaited holds answers
        · exact .inl ended
        · refine .inr ⟨reception, ack, waits, ?_, departs.marked ack answers⟩
          simp only [empty, msgsnd, List.nil_append]
  | finish finishes =>
      constructor
      · simp
      · exact fun _ => departs.left (.inl finishes)
  | alarm => exact departs_over (over_of_kill state.target sigkill) (by simp)
  | waitForTarget => exact departs.same rfl rfl (.inl rfl)
  | recreate cleans _ =>
      exact departs_over (holds.reaped.resolve_left (by simp [cleans])) (by simp)
  | keep => exact departs.same rfl rfl (.inl rfl)
  | waitForInterceptor => exact departs.same rfl rfl (.inl rfl)

theorem deserting_abandons {state next : RunState Place} {action : Action} {phase : Exchange}
    (taken : step setup state action = some next) (holds : InPhase state phase)
    (deserts : Deserts state action next) : Abandoned next := by
  obtain ⟨⟨input, rfl⟩, died, alive⟩ := deserts
  cases step_turn taken with
  | answer => simp at died
  | spin => simp at died
  | @crash place pkt _ held =>
      have inHand : phase = .held pkt := by
        have holding := holds.interceptor
        rwa [held] at holding
      subst inHand
      have carried : state.queue = [] := holds.queue_of_alive alive
      have placed := holds.target
      refine ⟨holds.unreaped alive, rfl, .inr ⟨?_, by simp [carried, msgrcv]⟩⟩
      cases target : state.target with
      | running => simp [target, TargetAt] at placed
      | spinning => simp [target, TargetAt] at placed
      | waiting reception => exact ⟨reception, rfl⟩
      | ended status inHook => exact absurd ⟨status, inHook, target⟩ alive

theorem abandoned_step {state next : RunState Place} {action : Action}
    (taken : step setup state action = some next) (abandoned : Abandoned state) :
    Departs next ∨ Abandoned next := by
  by_cases unaided : Unaided state action
  · exact .inr (abandoned_stays unaided taken abandoned)
  · left
    simp only [Unaided, not_forall] at unaided
    obtain ⟨status, rfl, -⟩ := unaided
    cases step_turn taken with
    | die dies => exact departs_over (over_of_die dies) (by simp [abandoned.interceptor])

theorem Departs.not_abandoned {state : RunState Place} (departs : Departs state) :
    ¬Abandoned state := by
  rintro ⟨-, gone, target⟩
  rcases departs.left (.inr gone) with ended | ⟨reception, ack, waits, queue, -⟩
  · rcases target with spins | ⟨⟨other, waits⟩, -⟩
    · simp [spins, Over] at ended
    · simp [waits, Over] at ended
  · rcases target with spins | ⟨-, nothing⟩
    · simp [spins] at waits
    · simp [queue, msgrcv] at nothing

/-- From an empty queue the interceptor leaves the target with the last answer, or
by a death in its turn. -/
theorem run_departs_or_abandons (marked : LeavesMarked setup.server) {state : RunState Place}
    {actions : List Action} (run : fuzzOne setup [] actions = some state) :
    (∃ phase, InPhase state phase) ∧ (Departs state ∨ Abandoned state) := by
  apply exec_preserves _ run
  · exact ⟨⟨.idle, start_in_phase setup⟩, .inl (departs_inside (by simp [RunState.start])
      (by simp [RunState.start]))⟩
  · rintro before action next taken ⟨⟨phase, holds⟩, departs | abandoned⟩
    · obtain ⟨after, follows, -⟩ := turn_follows (step_turn taken) holds
      refine ⟨⟨after, follows⟩, ?_⟩
      by_cases deserts : Deserts before action next
      · exact .inr (deserting_abandons taken holds deserts)
      · exact .inl (step_departs marked taken holds departs deserts)
    · obtain ⟨after, follows, -⟩ := turn_follows (step_turn taken) holds
      exact ⟨⟨after, follows⟩, abandoned_step taken abandoned⟩

theorem abandons_iff (marked : LeavesMarked setup.server) {state next : RunState Place}
    {actions : List Action} {action : Action} (run : fuzzOne setup [] actions = some state)
    (free : ¬Abandoned state) (taken : step setup state action = some next) :
    Abandoned next ↔ Deserts state action next := by
  obtain ⟨⟨phase, holds⟩, departs⟩ := run_departs_or_abandons marked run
  constructor
  · intro abandoned
    by_contra serves
    exact (step_departs marked taken holds (departs.resolve_right free) serves).not_abandoned
      abandoned
  · exact deserting_abandons taken holds

end

/-- The random mutator is about to divide by the limit of a radio that has none. -/
def DividingTurn (build : Build) (corpus : List BlePkt) (state : RunState (FuzzPlace corpus))
    (action : Action) : Prop :=
  ∃ i pkt input, action = .process input ∧ state.interceptor = .holding (.loop i) pkt ∧
    build = .random ∧ pkt.deviceId = 1 ∧ (corpus.get i).deviceId ≠ 0 ∧
    DividesByLimit (copyBlePkt pkt (corpus.get i)).2 input.draws

theorem run_mutator_faults_iff (build : Build) (idx : Nat) (packet : BlePkt) (beyond : Memory)
    (draws : Stream' Rand) :
    (∃ fault after, runMutator (mutatePkt build idx) beyond packet draws = .error fault after) ↔
      build = .random ∧ DividesByLimit packet draws := by
  have returned {program : Program Rand Nat}
      (returns : Returns program (place packet beyond) draws fun _ _ _ => True) :
      ¬∃ fault after, runMutator program beyond packet draws = .error fault after := by
    rintro ⟨fault, after, stopped⟩
    exact returns.not_stops ⟨after, stopped⟩
  cases build with
  | fieldAware config =>
      have runs := returned (full_stack2_faultless config idx).returns_some
      exact iff_of_false runs (by simp)
  | afl =>
      have runs := returned (afl_faultless idx).returns_some
      exact iff_of_false runs (by simp)
  | random =>
      simp only [true_and]
      constructor
      · intro stopped
        by_contra safe
        exact returned (random_returns packet beyond idx draws safe) stopped
      · intro divides
        obtain ⟨after, stopped⟩ := random_stops packet beyond idx draws divides
        exact ⟨_, after, stopped⟩

theorem fuzz_turn_dies_iff (build : Build) (corpus : List BlePkt) (place : FuzzPlace corpus)
    (pktRec : PktRecord) (pkt : BlePkt) (input : Input) :
    fuzzReact build corpus place pktRec pkt input = .dies ↔
      ∃ i, place = .loop i ∧ build = .random ∧ pkt.deviceId = 1 ∧ (corpus.get i).deviceId ≠ 0 ∧
        DividesByLimit (copyBlePkt pkt (corpus.get i)).2 input.draws := by
  cases place with
  | trailing => simp [fuzzReact]
  | terminating => simp [fuzzReact]
  | loop i =>
      have faults := run_mutator_faults_iff build (i + 1) (copyBlePkt pkt (corpus.get i)).2
        input.beyond input.draws
      have named (rest : Fin corpus.length → Prop) :
          (∃ j, FuzzPlace.loop i = .loop j ∧ rest j) ↔ rest i := by simp
      rw [named]
      simp only [fuzzReact]
      by_cases device : pkt.deviceId = 1
      · by_cases live : (corpus.get i).deviceId ≠ 0
        · rw [if_pos device, if_pos live]
          cases run : runMutator (mutatePkt build (i + 1)) input.beyond
              (copyBlePkt pkt (corpus.get i)).2 input.draws with
          | ok ret after =>
              refine iff_of_false (by simp) fun dies => ?_
              obtain ⟨fault, other, stopped⟩ := faults.mpr ⟨dies.1, dies.2.2.2⟩
              rw [run] at stopped
              cases stopped
          | error fault after =>
              obtain ⟨random, divides⟩ := faults.mp ⟨fault, after, run⟩
              exact iff_of_true rfl ⟨random, device, live, divides⟩
        · rw [if_pos device, if_neg live]
          exact iff_of_false (by simp) fun dies => live dies.2.2.1
      · rw [if_neg device]
        exact iff_of_false (by simp) fun dies => device dies.2.1

abbrev fuzzSetup (attackerStatus : WaitStatus) (build : Build) (corpus : List BlePkt) :
    Setup (FuzzPlace corpus) := Mode.setup attackerStatus (.fuzz build corpus)

theorem dividing_turn_taken {build : Build} {corpus : List BlePkt} (attackerStatus : WaitStatus)
    {state : RunState (FuzzPlace corpus)} {action : Action}
    (divides : DividingTurn build corpus state action) :
    step (fuzzSetup attackerStatus build corpus) state action =
      some { state with interceptor := .ended } := by
  obtain ⟨i, pkt, input, rfl, held, divides⟩ := divides
  have dies := (fuzz_turn_dies_iff build corpus (.loop i) state.pktRec pkt input).mpr
    ⟨i, rfl, divides⟩
  simp only [step, process, held, fuzzSetup, Mode.setup, fuzzServer, dies]

theorem deserts_iff (build : Build) (corpus : List BlePkt) (attackerStatus : WaitStatus)
    {state next : RunState (FuzzPlace corpus)} {action : Action}
    (taken : step (fuzzSetup attackerStatus build corpus) state action = some next) :
    Deserts state action next ↔ ¬Over state.target ∧ DividingTurn build corpus state action := by
  constructor
  · rintro ⟨⟨input, rfl⟩, died, alive⟩
    refine ⟨alive, ?_⟩
    simp only [step, process] at taken
    split at taken
    · rename_i place pkt held
      split at taken
      · cases taken
        simp at died
      · cases taken
        simp at died
      · rename_i dies
        obtain ⟨i, rfl, divides⟩ :=
          (fuzz_turn_dies_iff build corpus place state.pktRec pkt input).mp dies
        exact ⟨i, pkt, input, rfl, held, divides⟩
    · cases taken
  · rintro ⟨alive, divides⟩
    rw [dividing_turn_taken attackerStatus divides] at taken
    cases taken
    obtain ⟨i, pkt, input, rfl, -⟩ := divides
    exact ⟨⟨input, rfl⟩, rfl, alive⟩

theorem fuzz_leaves_marked (build : Build) (corpus : List BlePkt) :
    LeavesMarked (fuzzServer build corpus) := by
  intro place pktRec request input ack added turn
  cases place with
  | loop i =>
      rcases fuzz_loop_turn turn with ⟨-, -, -, none⟩ | ⟨-, -, -, none⟩
      · cases none
      · cases none
  | trailing => cases turn
  | terminating =>
      cases turn
      rfl

theorem fuzz_abandons_iff (build : Build) (corpus : List BlePkt) (attackerStatus : WaitStatus)
    {actions : List Action} {state next : RunState (FuzzPlace corpus)} {action : Action}
    (run : fuzzOne (fuzzSetup attackerStatus build corpus) [] actions = some state)
    (free : ¬Abandoned state)
    (taken : step (fuzzSetup attackerStatus build corpus) state action = some next) :
    Abandoned next ↔ ¬Over state.target ∧ DividingTurn build corpus state action := by
  rw [abandons_iff (fuzz_leaves_marked build corpus) run free taken]
  exact deserts_iff build corpus attackerStatus taken

/-- Whatever was in the queue and in the logs, a fuzzing run can end from every state
it reaches, unless the interceptor has left a target alone in the hook, or the parent is
bound to loop over an empty log. The end of a process with an error and no output is
what binds it. From an empty queue only a division by zero of the random mutator leaves
a target alone. -/
theorem fuzz_run_finishes (build : Build) (corpus : List BlePkt) (attackerStatus : WaitStatus)
    (totalExecTimes : UInt64) (session : Session) (queue : List Message)
    (actions : List ReportAction) (state : ReportedRun (FuzzPlace corpus))
    (run : exec (reportStep (fuzzSetup attackerStatus build corpus) totalExecTimes)
      (session.begin (fuzzSetup attackerStatus build corpus) queue) actions = some state) :
    (CanFinish (fuzzSetup attackerStatus build corpus) totalExecTimes state ↔
      ¬Abandoned state.run ∧ ¬Silenced (fuzzSetup attackerStatus build corpus) state) ∧
    ∀ action next,
      reportStep (fuzzSetup attackerStatus build corpus) totalExecTimes state action = some next →
      (¬Silenced (fuzzSetup attackerStatus build corpus) state →
        (Silenced (fuzzSetup attackerStatus build corpus) next ↔
          Silences (fuzzSetup attackerStatus build corpus) state action)) ∧
      (queue = [] → ¬Abandoned state.run →
        (Abandoned next.run ↔ ¬Over state.run.target ∧
          ∃ turn, action = .run turn ∧ DividingTurn build corpus state.run turn)) := by
  obtain ⟨steps, bare⟩ := reported_run run
  have reaped := run_reaped bare
  have inside := exec_preserves step_loops_inside run (by simp [LoopsInside, Session.begin])
  constructor
  · constructor
    · intro finishes
      constructor
      · intro abandoned
        apply trap_never_finishes (fun _ _ _ => abandoned_stays) _ abandoned finishes
        rintro other ⟨parent, -, -⟩ ⟨fault, finished⟩
        simp [parent] at finished
      · intro silenced
        exact silenced_never_finishes inside silenced finishes
    · rintro ⟨free, heard⟩
      exact heard_finishes heard (fuzz_finishes rfl reaped free)
  · intro action next taken
    refine ⟨silenced_step_iff reaped taken, ?_⟩
    rintro rfl free
    cases report_step_turn taken with
    | run _ moved _ _ _ =>
        rw [fuzz_abandons_iff build corpus attackerStatus bare free moved]
        simp
    | write _ => exact iff_of_false free (by simp)
    | attackerEnds _ => exact iff_of_false free (by simp)

def unlimitedReception : Reception :=
  { shortReception with radio := ⟨0, 0, 0⟩, lenOfPayload := 2 }

def unlimitedPkt : BlePkt := hijackRecord ⟨0, 0, 0⟩ silence 2 (fun _ => 0) 1

def unlimitedSeed : List BlePkt := [{ silence with deviceId := 1 }]

def newSession : Session := .start (fun _ => none) fun _ => none

/-- The random mutator divides by that limit, and the run cannot end any more. -/
theorem unlimited_packet_abandons : ∃ state next,
    exec (reportStep (fuzzSetup (.signaled sigkill) .random unlimitedSeed) 1)
      (newSession.begin (fuzzSetup (.signaled sigkill) .random unlimitedSeed) [])
      [.run (.hook unlimitedReception), .run .receive] = some state ∧
    reportStep (fuzzSetup (.signaled sigkill) .random unlimitedSeed) 1 state
      (.run (.process ⟨Stream'.const (drawnOf 50), fun _ => 0, 0⟩)) = some next ∧
    Abandoned next.run ∧
    ¬CanFinish (fuzzSetup (.signaled sigkill) .random unlimitedSeed) 1 next := by
  obtain ⟨state, run, held, waits, free⟩ : ∃ state,
      exec (reportStep (fuzzSetup (.signaled sigkill) .random unlimitedSeed) 1)
        (newSession.begin (fuzzSetup (.signaled sigkill) .random unlimitedSeed) [])
        [.run (.hook unlimitedReception), .run .receive] = some state ∧
      state.run.interceptor = .holding (.loop ⟨0, by decide⟩) unlimitedPkt ∧
      state.run.target = .waiting unlimitedReception ∧ state.looping = false :=
    ⟨_, rfl, rfl, rfl, rfl⟩
  have divides : DividingTurn .random unlimitedSeed state.run
      (.process ⟨Stream'.const (drawnOf 50), fun _ => 0, 0⟩) :=
    ⟨_, _, _, rfl, held, rfl, by decide, by decide, by decide, rfl, by decide,
      fun _ => by decide⟩
  obtain ⟨next, taken⟩ : ∃ next,
      reportStep (fuzzSetup (.signaled sigkill) .random unlimitedSeed) 1 state
        (.run (.process ⟨Stream'.const (drawnOf 50), fun _ => 0, 0⟩)) = some next := by
    simp only [reportStep, parentFree, if_true, dividing_turn_taken (.signaled sigkill) divides]
    exact ⟨_, rfl⟩
  have alive : ¬Over state.run.target := waits ▸ not_over_waiting unlimitedReception
  have attended : ¬Abandoned state.run := by
    intro abandoned
    have gone := abandoned.interceptor
    simp [held] at gone
  have before := fuzz_run_finishes .random unlimitedSeed (.signaled sigkill) 1 newSession [] _
    state run
  have abandoned := ((before.2 _ _ taken).2 rfl attended).mpr ⟨alive, _, rfl, divides⟩
  have after := fuzz_run_finishes .random unlimitedSeed (.signaled sigkill) 1 newSession [] _
    next (exec_snoc run taken)
  exact ⟨state, next, run, taken, abandoned, fun finishes => (after.1.mp finishes).1 abandoned⟩

section

variable {Place : Type} {setup : Setup Place}

/-- The fault the parent has read off the target, and what it has made of it. -/
structure Informed (setup : Setup Place) (state : RunState Place) : Prop where
  fault : ∀ fault, state.parent = .cleaning fault ∨ state.parent = .waitingForInterceptor fault →
    ∃ status inHook, state.target = .ended status inHook ∧ fault = faultOfStatus status
  recreated : ∀ fault, state.parent = .waitingForInterceptor fault →
    recreatesQueue setup.attackerStatus fault = true → state.interceptor = .ended
  finished : ∀ fault, state.parent = .finished fault → state.interceptor = .ended

theorem Informed.keep {state next : RunState Place} {action : Action}
    (informed : Informed setup state) (taken : step setup state action = some next)
    (parent : next.parent = state.parent) : Informed setup next := by
  constructor
  · intro fault cleans
    rw [parent] at cleans
    obtain ⟨status, inHook, gone, same⟩ := informed.fault fault cleans
    exact ⟨status, inHook, ended_target_stays taken gone, same⟩
  · intro fault waits recreates
    rw [parent] at waits
    exact ended_stays taken (informed.recreated fault waits recreates)
  · intro fault finished
    rw [parent] at finished
    exact ended_stays taken (informed.finished fault finished)

theorem step_informed : Preserves (step setup) (Informed setup) := by
  intro state action next taken informed
  cases step_turn taken with
  | @waitForTarget status inHook _ gone =>
      refine ⟨?_, by simp, by simp⟩
      intro fault cleans
      have same : faultOfStatus status = fault := by simpa using cleans
      exact ⟨status, inHook, gone, same.symm⟩
  | @recreate fault cleans _ =>
      refine ⟨?_, fun _ _ _ => rfl, by simp⟩
      intro other waits
      have same : fault = other := by simpa using waits
      exact informed.fault other (.inl (same ▸ cleans))
  | @keep fault cleans passed =>
      have same {other : RunFault}
          (waits : (Parent.waitingForInterceptor fault) = .waitingForInterceptor other) :
          fault = other := by simpa using waits
      refine ⟨?_, ?_, by simp⟩
      · rintro other (none | waits)
        · cases none
        · exact informed.fault other (.inl (same waits ▸ cleans))
      · intro other waits recreates
        rw [← same waits, passed] at recreates
        cases recreates
  | waitForInterceptor _ gone => exact ⟨by simp, by simp, fun _ _ => gone⟩
  | _ => exact informed.keep taken rfl

/-- A target that exits in the hook has been told to. -/
structure Told (state : RunState Place) : Prop where
  sends : ∀ reception, state.target = .waiting reception →
    ∃ sent resume, reception.call = .exchanges sent resume
  exited : state.target = .ended (.exited 0) true → ∃ ack ∈ state.consumed, ack.mutated = 2

theorem resumed_running {reception : Reception} {sent : BlePkt} {resume : BlePkt → HookOutcome}
    (call : reception.call = .exchanges sent resume) {ack : BlePkt} (goesOn : ack.mutated ≠ 2) :
    reception.resumed ack = .running := by
  unfold Reception.call hijackPacketRecorder at call
  split_ifs at call with fits
  simp only [Reception.resumed, Reception.call, hijackPacketRecorder, if_pos fits,
    HookCall.bufAfter, hijackApply, if_neg goesOn]
  split_ifs <;> rfl

theorem step_told : Preserves (step setup) Told := by
  intro state action next taken told
  cases step_turn taken with
  | @hook reception sent resume _ call =>
      refine ⟨?_, by simp⟩
      intro other waits
      have same : reception = other := by simpa using waits
      exact ⟨sent, resume, same ▸ call⟩
  | overflow => exact ⟨by simp, by simp⟩
  | @consume reception ack rest waits _ =>
      obtain ⟨sent, resume, call⟩ := told.sends reception waits
      by_cases ending : ack.mutated = 2
      · refine ⟨by simp [resumed_exits reception ending], fun _ => ⟨ack, ?_, ending⟩⟩
        exact List.mem_append_right _ List.mem_cons_self
      · have runs := resumed_running call ending
        exact ⟨by simp [runs], by simp [runs]⟩
  | die dies =>
      obtain ⟨-, ⟨-, rfl⟩ | ⟨signal, rfl, rfl⟩⟩ := die_ends dies
      · exact ⟨by simp, by simp⟩
      · exact ⟨by simp, by simp⟩
  | alarm =>
      have exited := told.exited
      cases target : state.target with
      | ended status inHook =>
          rw [target] at exited
          exact ⟨by simp [Target.kill], exited⟩
      | running => exact ⟨by simp [Target.kill], by simp [Target.kill]⟩
      | spinning => exact ⟨by simp [Target.kill], by simp [Target.kill]⟩
      | waiting reception => exact ⟨by simp [Target.kill], by simp [Target.kill]⟩
  | _ => exact ⟨told.sends, told.exited⟩

theorem run_told {queue : List Message} {state : RunState Place} {actions : List Action}
    (run : fuzzOne setup queue actions = some state) : Told state :=
  exec_preserves step_told run ⟨by simp [RunState.start], by simp [RunState.start]⟩

theorem told_answered {state : RunState Place} {actions : List Action}
    (run : fuzzOne setup [] actions = some state)
    (gone : state.target = .ended (.exited 0) true) :
    ∃ (index : Nat) (served : Served), state.answered[index]? = some served ∧
      served.ack.mutated = 2 := by
  obtain ⟨phase, -, balanced⟩ := run_in_lock_step run
  obtain ⟨ack, member, ending⟩ := (run_told run).exited gone
  obtain ⟨index, consumed⟩ := List.mem_iff_getElem?.mp member
  obtain ⟨request, answered, -⟩ := balanced.paired consumed
  simp only [conversationOf, List.getElem?_map] at answered
  obtain ⟨served, found, pair⟩ := Option.map_eq_some_iff.mp answered
  cases pair
  exact ⟨index, served, found, ending⟩

/-- The answer that ends the run is the last one, and takes the interceptor out of
its loops. -/
theorem ending_answer_last (marks : setup.server.MarksEnd) {state : RunState Place}
    {actions : List Action} (run : fuzzOne setup [] actions = some state) {index : Nat}
    {served : Served} (found : state.answered[index]? = some served)
    (ending : served.ack.mutated = 2) :
    index + 1 = state.answered.length ∧
      ∀ place, Serves setup.server state.answered place state.pktRec → place = none := by
  obtain ⟨phase, -, balanced⟩ := run_in_lock_step run
  have unmutated := answered_unmutated balanced (run_hooked run)
  obtain ⟨place, serves⟩ := (run_tracked run).serves
  exact ⟨(ending_is_last marks serves unmutated found ending).2,
    fun _ serves => (ending_is_last marks serves unmutated found ending).1⟩

theorem told_leaves (marks : setup.server.MarksEnd) {state : RunState Place}
    {actions : List Action} (run : fuzzOne setup [] actions = some state)
    (gone : state.target = .ended (.exited 0) true) :
    (∀ place, state.interceptor ≠ .awaiting place) ∧
      ∀ place pkt, state.interceptor ≠ .holding place pkt := by
  obtain ⟨index, served, found, ending⟩ := told_answered run gone
  have left := (ending_answer_last marks run found ending).2
  have tracked := run_tracked run
  constructor
  · intro place awaits
    simp only [Tracked, awaits] at tracked
    cases left _ tracked
  · intro place pkt holding
    simp only [Tracked, holding] at tracked
    cases left _ tracked

end

section

variable {attackerStatus : WaitStatus}

abbrev initSetup (attackerStatus : WaitStatus) : Setup InitPlace :=
  Mode.setup attackerStatus .initCorpus

theorem init_leaves_marked : LeavesMarked initServer := by
  intro place pktRec request input ack added turn
  cases place with
  | loop vars =>
      obtain ⟨-, -, ⟨_, none⟩ | ⟨-, _, none⟩⟩ := init_loop_turn turn
      · cases none
      · cases none
  | terminating maxDeltaIndex =>
      cases turn
      rfl

theorem init_turn_answers (place : InitPlace) (pktRec : PktRecord) (pkt : BlePkt) (input : Input) :
    ∃ ack added next, initReact place pktRec pkt input = .answers ack added next := by
  cases place with
  | loop vars =>
      simp only [initReact]
      split_ifs
      all_goals exact ⟨_, _, _, rfl⟩
  | terminating maxDeltaIndex => exact ⟨_, _, _, rfl⟩

structure Patient (state : RunState InitPlace) : Prop where
  spins : state.interceptor ≠ .spinning
  killed : ∀ inHook, state.target ≠ .ended (.signaled sigkill) inHook

theorem step_patient : Preserves (step (initSetup attackerStatus)) Patient := by
  intro state action next taken ⟨spins, killed⟩
  cases step_turn taken with
  | hook => exact ⟨spins, by simp⟩
  | overflow => exact ⟨spins, by simp⟩
  | @consume reception ack rest _ _ =>
      refine ⟨spins, ?_⟩
      rcases resumed_running_or_over reception ack with runs | exits
      · simp [runs]
      · simp [exits]
  | die dies =>
      obtain ⟨alive, ⟨-, rfl⟩ | ⟨signal, rfl, rfl⟩⟩ := die_ends dies
      · exact ⟨spins, by simpa using alive⟩
      · exact ⟨spins, by simpa using alive⟩
  | @spin place pkt input held =>
      obtain ⟨ack, added, following, answers⟩ := init_turn_answers place state.pktRec pkt input
      simp [step, process, held, Mode.setup, initServer, answers] at taken
  | alarm fuzzing _ => cases fuzzing
  | waitForTarget => exact ⟨spins, killed⟩
  | keep => exact ⟨spins, killed⟩
  | waitForInterceptor => exact ⟨spins, killed⟩
  | _ => exact ⟨by simp, killed⟩

def Attended (state : RunState InitPlace) : Prop :=
  ∀ reception, state.target = .waiting reception →
    (∃ pkt place, state.queue = [⟨.recvPkt, pkt⟩] ∧ state.interceptor = .awaiting place) ∨
    (∃ place pkt, state.queue = [] ∧ state.interceptor = .holding place pkt) ∨
    (∃ ack next, state.queue = [] ∧ state.interceptor = .answering ack next) ∨
    ∃ ack, state.queue = [⟨.recvPktAck, ack⟩]

structure Collects (attackerStatus : WaitStatus) (state : RunState InitPlace) : Prop where
  phase : ∃ phase, InPhase state phase
  patient : Patient state
  departs : Departs state
  informed : Informed (initSetup attackerStatus) state
  attended : Attended state

theorem step_attended {state next : RunState InitPlace} {action : Action}
    (taken : step (initSetup attackerStatus) state action = some next)
    (collects : Collects attackerStatus state) : Attended next := by
  obtain ⟨⟨phase, holds⟩, patient, departs, -, attended⟩ := collects
  cases step_turn taken with
  | @hook reception sent _ outside _ =>
      have alive : ¬Over state.target := outside ▸ not_over_running
      cases holds.target.running outside
      have empty := holds.queue_of_alive alive
      intro other _
      refine .inl ⟨sent, ?_⟩
      have inside : ¬(state.interceptor = .finishing ∨ state.interceptor = .ended) := by
        intro leaves
        rcases departs.left leaves with ended | ⟨_, _, waits, -⟩
        · exact alive ended
        · simp [outside] at waits
      have placed := holds.interceptor
      cases interceptor : state.interceptor with
      | awaiting place => exact ⟨place, by simp [empty, queueOf, msgsnd], rfl⟩
      | holding place pkt => simp [interceptor, InterceptorAt] at placed
      | answering ack next => simp [interceptor, InterceptorAt] at placed
      | spinning => exact absurd interceptor patient.spins
      | finishing => exact absurd (.inl interceptor) inside
      | ended => exact absurd (.inr interceptor) inside
  | overflow => simp [Attended]
  | @consume reception ack rest _ _ =>
      intro other waits
      rcases resumed_running_or_over reception ack with runs | exits
      · simp [runs] at waits
      · simp [exits] at waits
  | @die status target dies =>
      intro reception waits
      have still : target = .waiting reception := waits
      exact absurd (still ▸ over_of_die dies) (not_over_waiting reception)
  | @receive place pkt rest awaits received =>
      intro reception waits
      rcases attended reception waits with ⟨sent, _, queue, -⟩ | ⟨_, _, empty, -⟩ |
        ⟨_, _, empty, -⟩ | ⟨ack, queue⟩
      · rw [queue] at received
        cases received
        exact .inr (.inl ⟨place, sent, rfl, rfl⟩)
      · simp [empty, msgrcv] at received
      · simp [empty, msgrcv] at received
      · simp [queue, msgrcv] at received
  | @answer place pkt ack _ _ following held _ =>
      intro reception waits
      rcases attended reception waits with ⟨_, _, -, awaits⟩ | ⟨_, _, empty, -⟩ |
        ⟨_, _, -, answers⟩ | ⟨reply, queue⟩
      · simp [held] at awaits
      · exact .inr (.inr (.inl ⟨ack, following, empty, rfl⟩))
      · simp [held] at answers
      · exact .inr (.inr (.inr ⟨reply, queue⟩))
  | spin held => exact absurd rfl (step_patient _ _ _ taken patient).spins
  | @crash place pkt input held =>
      obtain ⟨ack, added, following, answers⟩ := init_turn_answers place state.pktRec pkt input
      simp [step, process, held, Mode.setup, initServer, answers] at taken
  | @acknowledge ack place answers =>
      have empty := (answer_awaited holds answers).1
      exact fun _ _ => .inr (.inr (.inr ⟨ack, by simp [empty, msgsnd]⟩))
  | @acknowledgeLast ack answers =>
      have empty := (answer_awaited holds answers).1
      exact fun _ _ => .inr (.inr (.inr ⟨ack, by simp [empty, msgsnd]⟩))
  | finish finishes =>
      intro reception waits
      rcases attended reception waits with ⟨_, _, -, other⟩ | ⟨_, _, -, other⟩ |
        ⟨_, _, -, other⟩ | replied
      · simp [finishes] at other
      · simp [finishes] at other
      · simp [finishes] at other
      · exact .inr (.inr (.inr replied))
  | alarm fuzzing _ => cases fuzzing
  | recreate cleans _ =>
      have gone := holds.reaped.resolve_left (by simp [cleans])
      intro reception waits
      have still : state.target = .waiting reception := waits
      exact absurd (still ▸ gone) (not_over_waiting reception)
  | waitForTarget => exact attended
  | keep => exact attended
  | waitForInterceptor => exact attended

theorem step_collects : Preserves (step (initSetup attackerStatus)) (Collects attackerStatus) := by
  intro state action next taken collects
  obtain ⟨phase, holds⟩ := collects.phase
  obtain ⟨after, follows, -⟩ := turn_follows (step_turn taken) holds
  have patient := step_patient state action next taken collects.patient
  have serves : ¬Deserts state action next := by
    rintro ⟨⟨input, rfl⟩, died, -⟩
    simp only [step, process] at taken
    split at taken
    · rename_i place pkt held
      obtain ⟨ack, added, following, answers⟩ := init_turn_answers place state.pktRec pkt input
      simp only [initSetup, Mode.setup, initServer, answers] at taken
      cases taken
      simp at died
    · cases taken
  exact ⟨⟨after, follows⟩, patient,
    step_departs init_leaves_marked taken holds collects.departs serves,
    step_informed state action next taken collects.informed, step_attended taken collects⟩

theorem start_collects : Collects attackerStatus (.start (initSetup attackerStatus) []) where
  phase := ⟨.idle, start_in_phase _⟩
  patient := ⟨by simp [RunState.start], by simp [RunState.start]⟩
  departs := departs_inside (by simp [RunState.start]) (by simp [RunState.start])
  informed := ⟨by simp [RunState.start], by simp [RunState.start], by simp [RunState.start]⟩
  attended := by simp [Attended, RunState.start]

structure Loops (state : RunState InitPlace) : Prop where
  parent : state.parent = .waitingForTarget
  target : state.target = .spinning

/-- The target has exited by itself, and the interceptor waits for a packet of it. -/
structure Forgotten (attackerStatus : WaitStatus) (state : RunState InitPlace) : Prop where
  target : state.target = .ended (.exited 0) false
  attacker : attackerFailed attackerStatus = false
  interceptor : ∃ place, state.interceptor = .awaiting place

theorem loops_stays {state next : RunState InitPlace} {action : Action}
    (unaided : Unaided state action)
    (taken : step (initSetup attackerStatus) state action = some next) (loops : Loops state) :
    Loops next := by
  obtain ⟨parent, spins⟩ := loops
  cases step_turn taken with
  | hook outside _ => simp [spins] at outside
  | overflow outside _ => simp [spins] at outside
  | consume waits _ => simp [spins] at waits
  | die _ =>
      have outside := unaided _ rfl
      simp [spins] at outside
  | alarm fuzzing _ => cases fuzzing
  | waitForTarget _ gone => simp [spins] at gone
  | recreate cleans _ => simp [parent] at cleans
  | keep cleans _ => simp [parent] at cleans
  | waitForInterceptor waits _ => simp [parent] at waits
  | _ => exact ⟨parent, spins⟩

theorem forgotten_stays {state next : RunState InitPlace} {action : Action}
    (taken : step (initSetup attackerStatus) state action = some next)
    (collects : Collects attackerStatus state) (forgotten : Forgotten attackerStatus state) :
    Forgotten attackerStatus next := by
  obtain ⟨gone, attacker, place, awaits⟩ := forgotten
  obtain ⟨phase, holds⟩ := collects.phase
  have idle : phase = .idle := by
    have placed := holds.target
    rwa [gone] at placed
  subst idle
  have empty := holds.queue_of_active (by simp [awaits])
  have stays := ended_target_stays taken gone
  cases step_turn taken with
  | receive _ received => simp [empty, queueOf, msgrcv] at received
  | answer held _ => simp [awaits] at held
  | spin held => simp [awaits] at held
  | crash held => simp [awaits] at held
  | acknowledge answers => simp [awaits] at answers
  | acknowledgeLast answers => simp [awaits] at answers
  | finish finishes => simp [awaits] at finishes
  | alarm fuzzing _ => cases fuzzing
  | recreate cleans failed =>
      obtain ⟨status, inHook, ended, rfl⟩ := collects.informed.fault _ (.inl cleans)
      rw [gone] at ended
      cases ended
      simp [recreatesQueue, Mode.setup, attacker, faultOfStatus] at failed
  | _ => exact ⟨stays, attacker, place, awaits⟩

theorem recreating_finishes {state : RunState InitPlace} {status : WaitStatus} {inHook : Bool}
    (informed : Informed (initSetup attackerStatus) state)
    (gone : state.target = .ended status inHook)
    (recreates : recreatesQueue attackerStatus (faultOfStatus status) = true) :
    EndsQuietly (initSetup attackerStatus) state := by
  have read {fault : RunFault}
      (knows : state.parent = .cleaning fault ∨ state.parent = .waitingForInterceptor fault) :
      recreatesQueue attackerStatus fault = true := by
    obtain ⟨other, _, ended, rfl⟩ := informed.fault fault knows
    rw [gone] at ended
    cases ended
    exact recreates
  cases parent : state.parent with
  | waitingForTarget =>
      exact can_reach_step _ (target_reaped parent gone) (quiet_of_ne (by simp))
        (cleaning_finishes rfl (.inl recreates))
  | cleaning fault => exact cleaning_finishes parent (.inl (read (.inl parent)))
  | waitingForInterceptor fault =>
      exact waiting_finishes parent (informed.recreated fault parent (read (.inr parent)))
  | finished fault => exact can_reach_here ⟨fault, parent⟩

theorem running_finishes {state : RunState InitPlace}
    (collects : Collects attackerStatus state) (outside : state.target = .running) :
    EndsQuietly (initSetup attackerStatus) state := by
  obtain ⟨phase, holds⟩ := collects.phase
  have parent := holds.unreaped (outside ▸ not_over_running)
  have crash : recreatesQueue attackerStatus (faultOfStatus (.exited 1)) = true := by
    simp [recreatesQueue, faultOfStatus]
  apply @running_dies _ _ state 1 outside (by decide)
  exact recreating_finishes ⟨by simp [parent], by simp [parent], by simp [parent]⟩ rfl crash

theorem told_finishes {state : RunState InitPlace} {actions : List Action}
    (run : fuzzOne (initSetup attackerStatus) [] actions = some state)
    (collects : Collects attackerStatus state) (gone : state.target = .ended (.exited 0) true) :
    EndsQuietly (initSetup attackerStatus) state := by
  have ended : Over state.target := ⟨_, _, gone⟩
  obtain ⟨notAwaiting, notHolding⟩ := told_leaves init_marks_end run gone
  obtain ⟨phase, holds⟩ := collects.phase
  cases interceptor : state.interceptor with
  | awaiting place => exact absurd interceptor (notAwaiting place)
  | holding place pkt => exact absurd interceptor (notHolding place pkt)
  | answering ack next =>
      have idle : phase = .idle := by
        have placed := holds.target
        rwa [gone] at placed
      have prepared := holds.interceptor
      rw [idle, interceptor] at prepared
      cases prepared
  | spinning => exact absurd interceptor collects.patient.spins
  | finishing => exact leaving_finishes ended (.inl interceptor)
  | ended => exact leaving_finishes ended (.inr interceptor)

theorem kept_status {status : WaitStatus}
    (kept : recreatesQueue attackerStatus (faultOfStatus status) = false) :
    attackerFailed attackerStatus = false ∧ (status = .exited 0 ∨ status = .signaled sigkill) := by
  simp only [recreatesQueue, Bool.or_eq_false_iff, beq_eq_false_iff_ne] at kept
  obtain ⟨⟨attacker, notError⟩, notCrash⟩ := kept
  refine ⟨attacker, ?_⟩
  cases status with
  | exited code =>
      left
      simp only [faultOfStatus] at notError notCrash
      split_ifs at notError notCrash with bad sanitizer
      · exact absurd rfl notCrash
      · exact absurd rfl notError
      · simpa using bad
  | signaled signal =>
      right
      simp only [faultOfStatus] at notError notCrash
      split_ifs at notError notCrash with trap kill
      · exact absurd rfl notError
      · rw [kill]
      · exact absurd rfl notCrash

theorem over_finishes {state : RunState InitPlace} {actions : List Action}
    (run : fuzzOne (initSetup attackerStatus) [] actions = some state)
    (collects : Collects attackerStatus state) {status : WaitStatus} {inHook : Bool}
    (gone : state.target = .ended status inHook) (kept : ¬Forgotten attackerStatus state) :
    EndsQuietly (initSetup attackerStatus) state := by
  by_cases recreates : recreatesQueue attackerStatus (faultOfStatus status) = true
  · exact recreating_finishes collects.informed gone recreates
  · obtain ⟨attacker, exited | killed⟩ := kept_status (by simpa using recreates)
    · subst exited
      cases inHook with
      | true => exact told_finishes run collects gone
      | false =>
          obtain ⟨phase, holds⟩ := collects.phase
          have idle : phase = .idle := by
            have placed := holds.target
            rwa [gone] at placed
          have placed := holds.interceptor
          rw [idle] at placed
          cases interceptor : state.interceptor with
          | awaiting place => exact absurd ⟨gone, attacker, place, interceptor⟩ kept
          | holding place pkt => simp [interceptor, InterceptorAt] at placed
          | answering ack next => simp [interceptor, InterceptorAt] at placed
          | spinning => exact absurd interceptor collects.patient.spins
          | finishing => exact leaving_finishes ⟨_, _, gone⟩ (.inl interceptor)
          | ended => exact leaving_finishes ⟨_, _, gone⟩ (.inr interceptor)
    · exact absurd (killed ▸ gone) (collects.patient.killed inHook)

theorem collects_on {state next : RunState InitPlace} {actions : List Action} {action : Action}
    (run : fuzzOne (initSetup attackerStatus) [] actions = some state)
    (collects : Collects attackerStatus state)
    (taken : step (initSetup attackerStatus) state action = some next)
    (other : ∀ status, action ≠ .die status)
    (later : ∀ actions, fuzzOne (initSetup attackerStatus) [] actions = some next →
      Collects attackerStatus next → EndsQuietly (initSetup attackerStatus) next) :
    EndsQuietly (initSetup attackerStatus) state :=
  can_reach_step action taken (quiet_of_ne other)
    (later _ (exec_snoc run taken) (step_collects state action next taken collects))

theorem replied_finishes {state : RunState InitPlace} {actions : List Action}
    (run : fuzzOne (initSetup attackerStatus) [] actions = some state)
    (collects : Collects attackerStatus state) {reception : Reception} {ack : BlePkt}
    (waits : state.target = .waiting reception) (queue : state.queue = [⟨.recvPktAck, ack⟩]) :
    EndsQuietly (initSetup attackerStatus) state := by
  have received : msgrcv .recvPktAck state.queue = some (ack, []) := by
    rw [queue]
    rfl
  have taken : step (initSetup attackerStatus) state .consume = some { state with
      target := reception.resumed ack
      queue := []
      consumed := state.consumed ++ [ack] } := by
    simp only [step, consume, waits, received, Option.map_some]
  apply collects_on run collects taken (by simp)
  intro longer runNext collectsNext
  rcases resumed_running_or_over reception ack with outside | exits
  · exact running_finishes collectsNext outside
  · exact told_finishes runNext collectsNext exits

theorem answering_finishes {state : RunState InitPlace} {actions : List Action}
    (run : fuzzOne (initSetup attackerStatus) [] actions = some state)
    (collects : Collects attackerStatus state) {reception : Reception} {ack : BlePkt}
    {next : Option InitPlace} (waits : state.target = .waiting reception)
    (empty : state.queue = []) (answers : state.interceptor = .answering ack next) :
    EndsQuietly (initSetup attackerStatus) state := by
  have taken : ∃ after, step (initSetup attackerStatus) state .acknowledge = some after ∧
      after.target = .waiting reception ∧ after.queue = [⟨.recvPktAck, ack⟩] := by
    simp only [step, acknowledge, answers]
    exact ⟨_, rfl, waits, by simp [empty, msgsnd]⟩
  obtain ⟨after, taken, still, replied⟩ := taken
  apply collects_on run collects taken (by simp)
  intro longer runNext collectsNext
  exact replied_finishes runNext collectsNext still replied

theorem holding_finishes {state : RunState InitPlace} {actions : List Action}
    (run : fuzzOne (initSetup attackerStatus) [] actions = some state)
    (collects : Collects attackerStatus state) {reception : Reception} {place : InitPlace}
    {pkt : BlePkt} (waits : state.target = .waiting reception) (empty : state.queue = [])
    (held : state.interceptor = .holding place pkt) :
    EndsQuietly (initSetup attackerStatus) state := by
  let input : Input := ⟨Stream'.const (drawnOf 0), fun _ => 0, 0⟩
  obtain ⟨ack, added, following, answers⟩ := init_turn_answers place state.pktRec pkt input
  have taken : step (initSetup attackerStatus) state (.process input) = some { state with
      interceptor := .answering ack following
      pktRec := added
      answered := state.answered ++ [⟨pkt, input, ack⟩] } := by
    simp only [step, process, held, initSetup, Mode.setup, initServer, answers]
  apply collects_on run collects taken (by simp)
  intro longer runNext collectsNext
  exact answering_finishes runNext collectsNext waits empty rfl

theorem awaiting_finishes {state : RunState InitPlace} {actions : List Action}
    (run : fuzzOne (initSetup attackerStatus) [] actions = some state)
    (collects : Collects attackerStatus state) {reception : Reception} {place : InitPlace}
    {pkt : BlePkt} (waits : state.target = .waiting reception)
    (queue : state.queue = [⟨.recvPkt, pkt⟩]) (awaits : state.interceptor = .awaiting place) :
    EndsQuietly (initSetup attackerStatus) state := by
  have received : msgrcv .recvPkt state.queue = some (pkt, []) := by
    rw [queue]
    rfl
  have taken : step (initSetup attackerStatus) state .receive = some { state with
      interceptor := .holding place pkt
      queue := [] } := by
    simp only [step, receive, awaits, received, Option.map_some]
  apply collects_on run collects taken (by simp)
  intro longer runNext collectsNext
  exact holding_finishes runNext collectsNext waits rfl rfl

theorem hooked_finishes {state : RunState InitPlace} {actions : List Action}
    (run : fuzzOne (initSetup attackerStatus) [] actions = some state)
    (collects : Collects attackerStatus state) {reception : Reception}
    (waits : state.target = .waiting reception) : EndsQuietly (initSetup attackerStatus) state := by
  rcases collects.attended reception waits with ⟨pkt, place, queue, awaits⟩ |
    ⟨place, pkt, empty, held⟩ | ⟨ack, next, empty, answers⟩ | ⟨ack, replied⟩
  · exact awaiting_finishes run collects waits queue awaits
  · exact holding_finishes run collects waits empty held
  · exact answering_finishes run collects waits empty answers
  · exact replied_finishes run collects waits replied

theorem quiet_init_run {actions : List Action} {state : RunState InitPlace}
    (run : fuzzOne (initSetup attackerStatus) [] actions = some state)
    (collects : Collects attackerStatus state) (loops : state.target ≠ .spinning)
    (kept : ¬Forgotten attackerStatus state) : EndsQuietly (initSetup attackerStatus) state := by
  cases target : state.target with
  | running => exact running_finishes collects target
  | spinning => exact absurd target loops
  | waiting reception => exact hooked_finishes run collects target
  | ended status inHook => exact over_finishes run collects target kept

/-- From an empty queue the run that collects the first seed can end from every
state it reaches, unless the target loops, or it has exited normally while the
interceptor waited for its next packet and the attacker showed no error, or the parent
is bound to loop over an empty log. -/
theorem init_run_finishes_iff (attackerStatus : WaitStatus) (totalExecTimes : UInt64)
    (session : Session) (actions : List ReportAction) (state : ReportedRun InitPlace)
    (run : exec (reportStep (initSetup attackerStatus) totalExecTimes)
      (session.begin (initSetup attackerStatus) []) actions = some state) :
    CanFinish (initSetup attackerStatus) totalExecTimes state ↔
      state.run.target ≠ .spinning ∧ ¬Forgotten attackerStatus state.run ∧
        ¬Silenced (initSetup attackerStatus) state := by
  obtain ⟨steps, bare⟩ := reported_run run
  have collects := exec_preserves step_collects bare start_collects
  have inside := exec_preserves step_loops_inside run (by simp [LoopsInside, Session.begin])
  constructor
  · intro finishes
    refine ⟨?_, ?_, fun silenced => silenced_never_finishes inside silenced finishes⟩
    · intro spins
      obtain ⟨phase, holds⟩ := collects.phase
      have parent := holds.unreaped (by simp [spins, Over])
      apply trap_never_finishes (fun _ _ _ => loops_stays) _ ⟨parent, spins⟩ finishes
      rintro other ⟨parent, -⟩ ⟨fault, finished⟩
      simp [parent] at finished
    · intro forgotten
      have stays (before : RunState InitPlace) (action : Action) (next : RunState InitPlace)
          (_ : Unaided before action)
          (taken : step (initSetup attackerStatus) before action = some next)
          (trapped : Collects attackerStatus before ∧ Forgotten attackerStatus before) :
          Collects attackerStatus next ∧ Forgotten attackerStatus next :=
        ⟨step_collects before action next taken trapped.1,
          forgotten_stays taken trapped.1 trapped.2⟩
      apply trap_never_finishes stays _ ⟨collects, forgotten⟩ finishes
      rintro other ⟨holds, -, -, place, awaits⟩ ⟨fault, finished⟩
      simp [holds.informed.finished fault finished] at awaits
  · rintro ⟨loops, kept, heard⟩
    exact heard_finishes heard (quiet_init_run bare collects loops kept)

/-- A target that exits before it has sent a packet leaves a run that does not end; so
does one that fails without a word, but not one that says why. -/
theorem early_exit_hangs : ∃ silent failed said,
    exec (reportStep (initSetup (.signaled sigkill)) 0)
      (newSession.begin (initSetup (.signaled sigkill)) []) [.run (.die (.exited 0))] =
        some silent ∧ ¬CanFinish (initSetup (.signaled sigkill)) 0 silent ∧
    exec (reportStep (initSetup (.signaled sigkill)) 0)
      (newSession.begin (initSetup (.signaled sigkill)) []) [.run (.die (.exited 255))] =
        some failed ∧ ¬CanFinish (initSetup (.signaled sigkill)) 0 failed ∧
    exec (reportStep (initSetup (.signaled sigkill)) 0)
      (newSession.begin (initSetup (.signaled sigkill)) [])
      [.write .target [69], .run (.die (.exited 255))] =
        some said ∧ CanFinish (initSetup (.signaled sigkill)) 0 said := by
  have silent := init_run_finishes_iff (.signaled sigkill) 0 newSession
    [.run (.die (.exited 0))] _ rfl
  have failed := init_run_finishes_iff (.signaled sigkill) 0 newSession
    [.run (.die (.exited 255))] _ rfl
  have said := init_run_finishes_iff (.signaled sigkill) 0 newSession
    [.write .target [69], .run (.die (.exited 255))] _ rfl
  refine ⟨_, _, _, rfl, fun finishes => ?_, rfl, fun finishes => ?_, rfl, said.mpr ⟨?_, ?_, ?_⟩⟩
  · exact (silent.mp finishes).2.1 ⟨rfl, rfl, _, rfl⟩
  · exact (failed.mp finishes).2.2 (.target rfl rfl (by decide) rfl)
  · intro spins
    cases spins
  · intro forgotten
    cases forgotten.target
  · intro silenced
    cases silenced with
    | looping loops => cases loops
    | target _ _ _ empty => cases empty
    | attacker _ gone => cases gone

end

end Blueman.RunLiveness
