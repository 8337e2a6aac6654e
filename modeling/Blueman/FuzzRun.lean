import Blueman.HijackHook
import Blueman.Interceptor
import Blueman.Library.Execution
import Blueman.RunOutcome

/-!
# One run of the fuzzer

`fuzz_one` and its processes: the target, whose hook sends every received packet
and waits for the acknowledgement; the interceptor, which serves the packets; the
alarm, whose handler runs in the interceptor; and the parent, which waits for the
target, cleans up and waits for the interceptor. They meet in the message queue
and in `pkt_rec`. Each action is one step of one process, in any order.
-/

namespace Blueman.FuzzRun

open LittleEndian BlePacket HijackHook MutatorBuild PacketRecord RunOutcome Interceptor

set_option autoImplicit false

inductive MessageType
  | recvPkt
  | recvPktAck
deriving DecidableEq

structure Message where
  type : MessageType
  pkt : BlePkt
deriving DecidableEq

def msgsnd (type : MessageType) (pkt : BlePkt) (queue : List Message) : List Message :=
  queue ++ [⟨type, pkt⟩]

/-- Takes the first message of the type; none: the caller blocks. -/
def msgrcv (type : MessageType) (queue : List Message) : Option (BlePkt × List Message) :=
  (queue.find? fun message => message.type == type).map fun message =>
    (message.pkt, queue.eraseP fun message => message.type == type)

/-- The arguments of a call of the hook and what it finds around it. -/
structure Reception where
  radio : Radio
  stack : BlePkt
  lenOfPayload : UInt64
  buf : Memory
  rx : UInt32

def Reception.call (reception : Reception) : HookCall :=
  hijackPacketRecorder reception.radio reception.stack reception.lenOfPayload reception.buf
    reception.rx

/-- A target runs outside the hook, waits in it for the acknowledgement, loops in
it forever on a packet that is too long, or has ended, inside the hook or not. -/
inductive Target
  | running
  | waiting (reception : Reception)
  | spinning
  | ended (status : WaitStatus) (inHook : Bool)

def Reception.resumed (reception : Reception) (ack : BlePkt) : Target :=
  match reception.call.bufAfter ack with
  | some _ => .running
  | none => .ended (.exited 0) true

def Target.kill (signal : Nat) : Target → Target
  | .running => .ended (.signaled signal) false
  | .waiting _ | .spinning => .ended (.signaled signal) true
  | .ended status inHook => .ended status inHook

/-- How a target can end by itself. In the hook it is blocked or loops, so that
only a signal ends it, and no process but the interceptor sends it `SIGKILL`. -/
def Target.die (status : WaitStatus) : Target → Option Target
  | .running => if status = .signaled sigkill then none else some (.ended status false)
  | .waiting _ | .spinning =>
      match status with
      | .signaled signal =>
          if signal = sigkill then none else some (.ended (.signaled signal) true)
      | .exited _ => none
  | .ended _ _ => none

theorem die_ends {target ended : Target} {status : WaitStatus}
    (dies : target.die status = some ended) :
    status ≠ .signaled sigkill ∧ (target = .running ∧ ended = .ended status false ∨
      ∃ signal, status = .signaled signal ∧ ended = .ended status true) := by
  unfold Target.die at dies
  split at dies
  · split_ifs at dies with killed
    cases dies
    exact ⟨killed, .inl ⟨rfl, rfl⟩⟩
  · split at dies
    · split_ifs at dies with killed
      cases dies
      exact ⟨by simpa using killed, .inr ⟨_, rfl, rfl⟩⟩
    · cases dies
  · split at dies
    · split_ifs at dies with killed
      cases dies
      exact ⟨by simpa using killed, .inr ⟨_, rfl, rfl⟩⟩
    · cases dies
  · cases dies

inductive InterceptorState (Place : Type)
  | awaiting (place : Place)
  | holding (place : Place) (pkt : BlePkt)
  | answering (ack : BlePkt) (next : Option Place)
  | spinning
  | finishing
  | ended

inductive Parent
  | waitingForTarget
  | cleaning (fault : RunFault)
  | waitingForInterceptor (fault : RunFault)
  | finished (fault : RunFault)

inductive Directory
  | seed
  | crash
  | timeout
  | attackErr
deriving DecidableEq

/-- What a run is given: the loop of the interceptor, whether it is the one that
collects a seed, and how the attacker will have ended. -/
structure Setup (Place : Type) where
  server : Server Place
  createInitCorpus : Bool
  attackerStatus : WaitStatus

/-- The two loops of the interceptor. -/
inductive Mode
  | initCorpus
  | fuzz (build : Build) (corpus : List BlePkt)

def Mode.Place : Mode → Type
  | .initCorpus => InitPlace
  | .fuzz _ corpus => FuzzPlace corpus

def Mode.setup (attackerStatus : WaitStatus) : (mode : Mode) → Setup mode.Place
  | .initCorpus => ⟨initServer, true, attackerStatus⟩
  | .fuzz build corpus => ⟨fuzzServer build corpus, false, attackerStatus⟩

/-- The last three fields are the history of the run: the packets sent by the
target, the turns of the interceptor, the acknowledgements consumed. -/
structure RunState (Place : Type) where
  queue : List Message
  target : Target
  interceptor : InterceptorState Place
  pktRec : PktRecord
  parent : Parent
  saves : List (Directory × SeedFile)
  sent : List BlePkt
  answered : List Served
  consumed : List BlePkt

def saveTo (directories : List Directory) (pktRec : PktRecord) : List (Directory × SeedFile) :=
  directories.map fun directory => (directory, saveSeqBufToFile2 pktRec)

/-- Where `wait_for_target` saves the record. -/
def targetSaves : WaitStatus → List Directory
  | .signaled signal => if signal = sigtrap then [] else if signal = sigkill then [] else [.crash]
  | .exited code => if code ≠ 0 then if code = 1 then [.crash] else [.attackErr] else []

/-- Where the clean-up of `fuzz_one` saves it. -/
def cleanUpSaves (attackerStatus : WaitStatus) (fault : RunFault) : List Directory :=
  (if attackerFailed attackerStatus then [.attackErr] else []) ++
    if fault = .timeout ∧ attackerStatus ≠ .signaled sigtrap then [.timeout] else []

def recreatesQueue (attackerStatus : WaitStatus) (fault : RunFault) : Bool :=
  attackerFailed attackerStatus || fault == .error || fault == .crash

section Step

variable {Place : Type}

def RunState.start (setup : Setup Place) (queue : List Message) : RunState Place where
  queue := queue
  target := .running
  interceptor := .awaiting setup.server.start
  pktRec := emptyRecord
  parent := .waitingForTarget
  saves := []
  sent := []
  answered := []
  consumed := []

def hook (reception : Reception) (state : RunState Place) : Option (RunState Place) :=
  match state.target with
  | .running =>
      match reception.call with
      | .exchanges sent _ => some { state with
          target := .waiting reception
          queue := msgsnd .recvPkt sent state.queue
          sent := state.sent ++ [sent] }
      | .spins => some { state with target := .spinning }
  | _ => none

def consume (state : RunState Place) : Option (RunState Place) :=
  match state.target with
  | .waiting reception =>
      (msgrcv .recvPktAck state.queue).map fun (ack, rest) => { state with
        target := reception.resumed ack
        queue := rest
        consumed := state.consumed ++ [ack] }
  | _ => none

def die (status : WaitStatus) (state : RunState Place) : Option (RunState Place) :=
  (state.target.die status).map fun target => { state with target := target }

def receive (state : RunState Place) : Option (RunState Place) :=
  match state.interceptor with
  | .awaiting place =>
      (msgrcv .recvPkt state.queue).map fun (pkt, rest) => { state with
        interceptor := .holding place pkt
        queue := rest }
  | _ => none

def process (setup : Setup Place) (input : Input) (state : RunState Place) :
    Option (RunState Place) :=
  match state.interceptor with
  | .holding place pkt =>
      match setup.server.react place state.pktRec pkt input with
      | .answers ack pktRec next => some { state with
          interceptor := .answering ack next
          pktRec := pktRec
          answered := state.answered ++ [⟨pkt, input, ack⟩] }
      | .spins => some { state with interceptor := .spinning }
      | .dies => some { state with interceptor := .ended }
  | _ => none

def acknowledge (state : RunState Place) : Option (RunState Place) :=
  match state.interceptor with
  | .answering ack next => some { state with
      interceptor := match next with
        | some place => .awaiting place
        | none => .finishing
      queue := msgsnd .recvPktAck ack state.queue }
  | _ => none

/-- The interceptor exits; after collecting a seed it saves it first. -/
def finish (setup : Setup Place) (state : RunState Place) : Option (RunState Place) :=
  match state.interceptor with
  | .finishing => some { state with
      interceptor := .ended
      saves := state.saves ++ saveTo (if setup.createInitCorpus then [.seed] else []) state.pktRec }
  | _ => none

/-- The alarm is set while fuzzing only, and goes with the interceptor. -/
def timeoutHandler (setup : Setup Place) (state : RunState Place) : Option (RunState Place) :=
  if setup.createInitCorpus then none
  else
    match state.interceptor with
    | .ended => none
    | _ => some { state with
        target := state.target.kill sigkill
        interceptor := .ended }

def waitForTarget (state : RunState Place) : Option (RunState Place) :=
  match state.parent, state.target with
  | .waitingForTarget, .ended status _ => some { state with
      parent := .cleaning (faultOfStatus status)
      saves := state.saves ++ saveTo (targetSaves status) state.pktRec }
  | _, _ => none

def cleanUp (setup : Setup Place) (state : RunState Place) : Option (RunState Place) :=
  match state.parent with
  | .cleaning fault =>
      let cleaned := { state with
        parent := .waitingForInterceptor fault
        saves := state.saves ++ saveTo (cleanUpSaves setup.attackerStatus fault) state.pktRec }
      some (if recreatesQueue setup.attackerStatus fault
        then { cleaned with queue := [], interceptor := .ended } else cleaned)
  | _ => none

def waitForInterceptor (state : RunState Place) : Option (RunState Place) :=
  match state.parent, state.interceptor with
  | .waitingForInterceptor fault, .ended => some { state with parent := .finished fault }
  | _, _ => none

inductive Action
  | hook (reception : Reception)
  | consume
  | die (status : WaitStatus)
  | receive
  | process (input : Input)
  | acknowledge
  | finish
  | alarm
  | waitForTarget
  | cleanUp
  | waitForInterceptor

def step (setup : Setup Place) (state : RunState Place) : Action → Option (RunState Place)
  | .hook reception => hook reception state
  | .consume => consume state
  | .die status => die status state
  | .receive => receive state
  | .process input => process setup input state
  | .acknowledge => acknowledge state
  | .finish => finish setup state
  | .alarm => timeoutHandler setup state
  | .waitForTarget => waitForTarget state
  | .cleanUp => cleanUp setup state
  | .waitForInterceptor => waitForInterceptor state

/-- A call of `fuzz_one` so far: the steps taken from what is in the queue. -/
def fuzzOne (setup : Setup Place) (queue : List Message) (actions : List Action) :
    Option (RunState Place) :=
  Execution.exec (step setup) (.start setup queue) actions

/-- The steps one by one, each with what enables it and what it leaves. -/
inductive Turn (setup : Setup Place) (state : RunState Place) : Action → RunState Place → Prop
  | hook {reception : Reception} {sent : BlePkt} {resume : BlePkt → HookOutcome}
      (outside : state.target = .running) (call : reception.call = .exchanges sent resume) :
      Turn setup state (.hook reception) { state with
        target := .waiting reception
        queue := msgsnd .recvPkt sent state.queue
        sent := state.sent ++ [sent] }
  | overflow {reception : Reception} (outside : state.target = .running)
      (call : reception.call = .spins) :
      Turn setup state (.hook reception) { state with target := .spinning }
  | consume {reception : Reception} {ack : BlePkt} {rest : List Message}
      (inHook : state.target = .waiting reception)
      (received : msgrcv .recvPktAck state.queue = some (ack, rest)) :
      Turn setup state .consume { state with
        target := reception.resumed ack
        queue := rest
        consumed := state.consumed ++ [ack] }
  | die {status : WaitStatus} {target : Target} (dies : state.target.die status = some target) :
      Turn setup state (.die status) { state with target := target }
  | receive {place : Place} {pkt : BlePkt} {rest : List Message}
      (awaits : state.interceptor = .awaiting place)
      (received : msgrcv .recvPkt state.queue = some (pkt, rest)) :
      Turn setup state .receive { state with interceptor := .holding place pkt, queue := rest }
  | answer {place : Place} {pkt ack : BlePkt} {input : Input} {pktRec : PktRecord}
      {next : Option Place} (holds : state.interceptor = .holding place pkt)
      (turn : setup.server.react place state.pktRec pkt input = .answers ack pktRec next) :
      Turn setup state (.process input) { state with
        interceptor := .answering ack next
        pktRec := pktRec
        answered := state.answered ++ [⟨pkt, input, ack⟩] }
  | spin {place : Place} {pkt : BlePkt} {input : Input}
      (holds : state.interceptor = .holding place pkt) :
      Turn setup state (.process input) { state with interceptor := .spinning }
  | crash {place : Place} {pkt : BlePkt} {input : Input}
      (holds : state.interceptor = .holding place pkt) :
      Turn setup state (.process input) { state with interceptor := .ended }
  | acknowledge {ack : BlePkt} {place : Place}
      (answers : state.interceptor = .answering ack (some place)) :
      Turn setup state .acknowledge { state with
        interceptor := .awaiting place
        queue := msgsnd .recvPktAck ack state.queue }
  | acknowledgeLast {ack : BlePkt} (answers : state.interceptor = .answering ack none) :
      Turn setup state .acknowledge { state with
        interceptor := .finishing
        queue := msgsnd .recvPktAck ack state.queue }
  | finish (finishes : state.interceptor = .finishing) :
      Turn setup state .finish { state with
        interceptor := .ended
        saves := state.saves ++
          saveTo (if setup.createInitCorpus then [.seed] else []) state.pktRec }
  | alarm (fuzzing : setup.createInitCorpus = false) (alive : state.interceptor ≠ .ended) :
      Turn setup state .alarm { state with
        target := state.target.kill sigkill
        interceptor := .ended }
  | waitForTarget {status : WaitStatus} {inHook : Bool}
      (waits : state.parent = .waitingForTarget)
      (gone : state.target = .ended status inHook) :
      Turn setup state .waitForTarget { state with
        parent := .cleaning (faultOfStatus status)
        saves := state.saves ++ saveTo (targetSaves status) state.pktRec }
  | recreate {fault : RunFault} (cleans : state.parent = .cleaning fault)
      (failed : recreatesQueue setup.attackerStatus fault = true) :
      Turn setup state .cleanUp { state with
        parent := .waitingForInterceptor fault
        saves := state.saves ++ saveTo (cleanUpSaves setup.attackerStatus fault) state.pktRec
        queue := []
        interceptor := .ended }
  | keep {fault : RunFault} (cleans : state.parent = .cleaning fault)
      (passed : recreatesQueue setup.attackerStatus fault = false) :
      Turn setup state .cleanUp { state with
        parent := .waitingForInterceptor fault
        saves := state.saves ++ saveTo (cleanUpSaves setup.attackerStatus fault) state.pktRec }
  | waitForInterceptor {fault : RunFault} (waits : state.parent = .waitingForInterceptor fault)
      (gone : state.interceptor = .ended) :
      Turn setup state .waitForInterceptor { state with parent := .finished fault }

theorem target_turn {setup : Setup Place} {state next : RunState Place} {reception : Reception}
    (taken : hook reception state = some next) : Turn setup state (.hook reception) next := by
  unfold hook at taken
  split at taken
  · rename_i outside
    split at taken
    · cases taken
      exact .hook outside ‹_›
    · cases taken
      exact .overflow outside ‹_›
  · cases taken

theorem consume_turn {setup : Setup Place} {state next : RunState Place}
    (taken : consume state = some next) : Turn setup state .consume next := by
  unfold consume at taken
  split at taken
  · rename_i inHook
    obtain ⟨⟨ack, rest⟩, received, rfl⟩ := Option.map_eq_some_iff.mp taken
    exact .consume inHook received
  · cases taken

theorem receive_turn {setup : Setup Place} {state next : RunState Place}
    (taken : receive state = some next) : Turn setup state .receive next := by
  unfold receive at taken
  split at taken
  · rename_i awaits
    obtain ⟨⟨pkt, rest⟩, received, rfl⟩ := Option.map_eq_some_iff.mp taken
    exact .receive awaits received
  · cases taken

theorem process_turn {setup : Setup Place} {state next : RunState Place} {input : Input}
    (taken : process setup input state = some next) : Turn setup state (.process input) next := by
  unfold process at taken
  split at taken
  · rename_i holds
    split at taken
    all_goals cases taken
    · exact .answer holds ‹_›
    · exact .spin holds
    · exact .crash holds
  · cases taken

theorem acknowledge_turn {setup : Setup Place} {state next : RunState Place}
    (taken : acknowledge state = some next) : Turn setup state .acknowledge next := by
  unfold acknowledge at taken
  split at taken
  · rename_i ack following answers
    cases taken
    cases following with
    | some place => exact .acknowledge answers
    | none => exact .acknowledgeLast answers
  · cases taken

theorem alarm_turn {setup : Setup Place} {state next : RunState Place}
    (taken : timeoutHandler setup state = some next) : Turn setup state .alarm next := by
  unfold timeoutHandler at taken
  split_ifs at taken with collecting
  split at taken
  · cases taken
  · rename_i alive
    cases taken
    exact .alarm (Bool.eq_false_iff.mpr collecting) alive

theorem clean_up_turn {setup : Setup Place} {state next : RunState Place}
    (taken : cleanUp setup state = some next) : Turn setup state .cleanUp next := by
  unfold cleanUp at taken
  split at taken
  · rename_i fault cleans
    cases failed : recreatesQueue setup.attackerStatus fault with
    | true =>
        rw [failed] at taken
        cases taken
        exact .recreate cleans failed
    | false =>
        rw [failed] at taken
        cases taken
        exact .keep cleans failed
  · cases taken

theorem step_turn {setup : Setup Place} {state next : RunState Place} {action : Action}
    (taken : step setup state action = some next) : Turn setup state action next := by
  cases action with
  | hook reception => exact target_turn taken
  | consume => exact consume_turn taken
  | die status =>
      obtain ⟨target, dies, rfl⟩ := Option.map_eq_some_iff.mp taken
      exact .die dies
  | receive => exact receive_turn taken
  | process input => exact process_turn taken
  | acknowledge => exact acknowledge_turn taken
  | finish =>
      simp only [step, finish] at taken
      split at taken
      · cases taken
        exact .finish ‹_›
      · cases taken
  | alarm => exact alarm_turn taken
  | waitForTarget =>
      simp only [step, waitForTarget] at taken
      split at taken
      · cases taken
        exact .waitForTarget ‹_› ‹_›
      · cases taken
  | cleanUp => exact clean_up_turn taken
  | waitForInterceptor =>
      simp only [step, waitForInterceptor] at taken
      split at taken
      · cases taken
        exact .waitForInterceptor ‹_› ‹_›
      · cases taken

def cleanUpKills (attackerStatus : WaitStatus) (run : RunState Place) (action : Action) : Bool :=
  match action, run.parent with
  | .cleanUp, .cleaning fault => recreatesQueue attackerStatus fault
  | _, _ => false

theorem clean_up_kills {setup : Setup Place} {run next : RunState Place}
    (taken : step setup run .cleanUp = some next)
    (kills : cleanUpKills setup.attackerStatus run .cleanUp = true) :
    next.interceptor = .ended := by
  cases step_turn taken with
  | recreate => rfl
  | keep cleans passed => simp [cleanUpKills, cleans, passed] at kills

def progress : InterceptorState Place → Nat
  | .finishing => 1
  | .ended => 2
  | _ => 0

theorem behind_iff {interceptor : InterceptorState Place} :
    interceptor = .finishing ∨ interceptor = .ended ↔ 1 ≤ progress interceptor := by
  cases interceptor <;> simp [progress]

theorem ended_iff {interceptor : InterceptorState Place} :
    interceptor = .ended ↔ 2 ≤ progress interceptor := by
  cases interceptor <;> simp [progress]

theorem step_progress {setup : Setup Place} {run next : RunState Place} {action : Action}
    (taken : step setup run action = some next) :
    progress run.interceptor ≤ progress next.interceptor := by
  have gone : progress run.interceptor ≤ 2 := by
    cases run.interceptor <;> simp [progress]
  cases step_turn taken with
  | recreate => exact gone
  | finish => exact gone
  | alarm => exact gone
  | receive awaits _ => simp [awaits, progress]
  | answer held _ => simp [held, progress]
  | spin held => simp [held, progress]
  | crash held => simp [held, progress]
  | acknowledge answers => simp [answers, progress]
  | acknowledgeLast answers => simp [answers, progress]
  | _ => exact Nat.le_refl _

theorem behind_stays {setup : Setup Place} {run next : RunState Place} {action : Action}
    (taken : step setup run action = some next)
    (behind : run.interceptor = .finishing ∨ run.interceptor = .ended) :
    next.interceptor = .finishing ∨ next.interceptor = .ended :=
  behind_iff.mpr ((behind_iff.mp behind).trans (step_progress taken))

theorem ended_stays {setup : Setup Place} {run next : RunState Place} {action : Action}
    (taken : step setup run action = some next)
    (gone : run.interceptor = .ended) : next.interceptor = .ended :=
  ended_iff.mpr ((ended_iff.mp gone).trans (step_progress taken))

theorem reaped_interceptor {setup : Setup Place} {run next : RunState Place} {action : Action}
    (taken : step setup run action = some next)
    (reaped : ∀ fault, run.parent = .finished fault → run.interceptor = .ended) :
    ∀ fault, next.parent = .finished fault → next.interceptor = .ended := by
  intro fault finished
  by_cases before : run.parent = .finished fault
  · exact ended_stays taken (reaped fault before)
  · cases step_turn taken with
    | waitForInterceptor _ gone => exact gone
    | waitForTarget => cases finished
    | recreate => cases finished
    | keep => cases finished
    | _ => exact absurd finished before

end Step

end Blueman.FuzzRun
