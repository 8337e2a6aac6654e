import Blueman.FuzzRun
import Blueman.Library.LockStep

/-!
# The processes of a run in lock step

A run that starts with an empty message queue follows the conversation of two
parties in lock step, in either loop of the interceptor. So the acknowledgements
the target consumes are the answers to its own packets, in order.
-/

namespace Blueman.RunLockStep

open BlePacket HijackHook MutatorBuild PacketRecord RunOutcome Interceptor FuzzRun Execution LockStep

set_option autoImplicit false

section

variable {Place : Type} {setup : Setup Place}

abbrev Exchange := Phase BlePkt BlePkt

/-- The queue carries what is on its way and nothing else. -/
def queueOf : Exchange → List Message
  | .requested pkt => [⟨.recvPkt, pkt⟩]
  | .replied ack => [⟨.recvPktAck, ack⟩]
  | _ => []

/-- The target waits in the hook during an exchange, or has been killed there. -/
def TargetAt (phase : Exchange) : Target → Prop
  | .running | .spinning => phase = .idle
  | .waiting _ => phase ≠ .idle
  | .ended _ false => phase = .idle
  | .ended (.exited _) true => phase = .idle
  | .ended (.signaled _) true => True

def InterceptorAt (phase : Exchange) : InterceptorState Place → Prop
  | .holding _ pkt => phase = .held pkt
  | .answering ack _ => phase = .prepared ack
  | _ => True

def Over (target : Target) : Prop := ∃ status inHook, target = .ended status inHook

/-- A run at a phase of the conversation. Once the queue has been made anew, it
is empty and nobody is left to use it. -/
structure InPhase (state : RunState Place) (phase : Exchange) : Prop where
  queue : state.queue = queueOf phase ∨
    state.queue = [] ∧ state.interceptor = .ended ∧ Over state.target
  target : TargetAt phase state.target
  interceptor : InterceptorAt phase state.interceptor
  reaped : state.parent = .waitingForTarget ∨ Over state.target

def conversationOf (state : RunState Place) (phase : Exchange) : Conversation BlePkt BlePkt where
  phase := phase
  sent := state.sent
  answered := state.answered.map fun served => (served.request, served.ack)
  consumed := state.consumed

theorem not_over_running : ¬Over .running := by
  rintro ⟨status, inHook, same⟩
  cases same

theorem not_over_waiting (reception : Reception) : ¬Over (.waiting reception) := by
  rintro ⟨status, inHook, same⟩
  cases same

theorem received_request {phase : Exchange} {pkt : BlePkt} {rest : List Message}
    (received : msgrcv .recvPkt (queueOf phase) = some (pkt, rest)) :
    phase = .requested pkt ∧ rest = [] := by
  cases phase with
  | requested request =>
      cases received
      exact ⟨rfl, rfl⟩
  | _ => cases received

theorem received_reply {phase : Exchange} {ack : BlePkt} {rest : List Message}
    (received : msgrcv .recvPktAck (queueOf phase) = some (ack, rest)) :
    phase = .replied ack ∧ rest = [] := by
  cases phase with
  | replied reply =>
      cases received
      exact ⟨rfl, rfl⟩
  | _ => cases received

theorem TargetAt.busy {phase other : Exchange} {target : Target} (holds : TargetAt phase target)
    (exchanging : phase ≠ .idle) (still : other ≠ .idle) : TargetAt other target := by
  cases target with
  | running => exact absurd holds exchanging
  | spinning => exact absurd holds exchanging
  | waiting reception => exact still
  | ended status inHook =>
      cases inHook with
      | false => exact absurd holds exchanging
      | true =>
          cases status with
          | exited code => exact absurd holds exchanging
          | signaled signal => trivial

theorem TargetAt.die {phase : Exchange} {target ended : Target} {status : WaitStatus}
    (holds : TargetAt phase target) (dies : target.die status = some ended) :
    TargetAt phase ended := by
  obtain ⟨-, ⟨rfl, rfl⟩ | ⟨signal, rfl, rfl⟩⟩ := die_ends dies
  · exact holds
  · trivial

theorem TargetAt.kill {phase : Exchange} {target : Target} (holds : TargetAt phase target)
    (signal : Nat) : TargetAt phase (target.kill signal) := by
  cases target with
  | running => exact holds
  | ended status inHook => exact holds
  | waiting reception => trivial
  | spinning => trivial

theorem over_of_kill (target : Target) (signal : Nat) : Over (target.kill signal) := by
  cases target <;> exact ⟨_, _, rfl⟩

theorem target_at_resumed (reception : Reception) (ack : BlePkt) :
    TargetAt .idle (reception.resumed ack) := by
  unfold Reception.resumed
  split <;> rfl

theorem InterceptorAt.free {phase other : Exchange} {interceptor : InterceptorState Place}
    (holds : InterceptorAt phase interceptor) (notHeld : ∀ pkt, phase ≠ .held pkt)
    (notPrepared : ∀ ack, phase ≠ .prepared ack) : InterceptorAt other interceptor := by
  cases interceptor with
  | holding place pkt => exact absurd holds (notHeld pkt)
  | answering ack next => exact absurd holds (notPrepared ack)
  | _ => trivial

theorem InPhase.queue_of_alive {state : RunState Place} {phase : Exchange}
    (holds : InPhase state phase) (alive : ¬Over state.target) : state.queue = queueOf phase :=
  holds.queue.resolve_right fun recreated => alive recreated.2.2

theorem InPhase.queue_of_active {state : RunState Place} {phase : Exchange}
    (holds : InPhase state phase) (active : state.interceptor ≠ .ended) :
    state.queue = queueOf phase :=
  holds.queue.resolve_right fun recreated => active recreated.2.1

theorem InPhase.unreaped {state : RunState Place} {phase : Exchange}
    (holds : InPhase state phase) (alive : ¬Over state.target) :
    state.parent = .waitingForTarget :=
  holds.reaped.resolve_right alive

theorem TargetAt.running {phase : Exchange} {target : Target} (holds : TargetAt phase target)
    (outside : target = .running) : phase = .idle := by
  subst outside
  exact holds

def Follows (state : RunState Place) (phase : Exchange) (next : RunState Place) : Prop :=
  ∃ after, InPhase next after ∧ (conversationOf next after = conversationOf state phase ∨
    Step (conversationOf state phase) (conversationOf next after))

theorem hook_follows {state next : RunState Place} {phase : Exchange} {reception : Reception}
    (turn : Turn setup state (.hook reception) next) (holds : InPhase state phase) :
    Follows state phase next := by
  cases turn with
  | @hook _ sent _ outside _ =>
      have alive : ¬Over state.target := outside ▸ not_over_running
      cases holds.target.running outside
      refine ⟨.requested sent, ⟨.inl ?_, ?_, ?_, .inl (holds.unreaped alive)⟩, .inr (.send sent)⟩
      · change msgsnd .recvPkt sent state.queue = _
        rw [holds.queue_of_alive alive]
        rfl
      · simp [TargetAt]
      · exact holds.interceptor.free (by simp) (by simp)
  | overflow outside _ =>
      have alive : ¬Over state.target := outside ▸ not_over_running
      refine ⟨phase, ⟨?_, ?_, holds.interceptor, .inl (holds.unreaped alive)⟩, .inl rfl⟩
      · exact .inl (holds.queue_of_alive alive)
      · exact holds.target.running outside

theorem consume_follows {state next : RunState Place} {phase : Exchange}
    (turn : Turn setup state .consume next) (holds : InPhase state phase) :
    Follows state phase next := by
  cases turn with
  | @consume reception ack rest inHook received =>
      have alive : ¬Over state.target := inHook ▸ not_over_waiting reception
      rw [holds.queue_of_alive alive] at received
      obtain ⟨rfl, rfl⟩ := received_reply received
      refine ⟨.idle, ⟨.inl rfl, ?_, ?_, .inl (holds.unreaped alive)⟩, .inr .consume⟩
      · exact target_at_resumed reception ack
      · exact holds.interceptor.free (by simp) (by simp)

theorem die_follows {state next : RunState Place} {phase : Exchange} {status : WaitStatus}
    (turn : Turn setup state (.die status) next) (holds : InPhase state phase) :
    Follows state phase next := by
  cases turn with
  | die dies =>
      have alive : ¬Over state.target := by
        rintro ⟨status, inHook, gone⟩
        rw [gone] at dies
        cases dies
      refine ⟨phase, ⟨?_, ?_, holds.interceptor, .inl (holds.unreaped alive)⟩, .inl rfl⟩
      · exact .inl (holds.queue_of_alive alive)
      · exact holds.target.die dies

theorem receive_follows {state next : RunState Place} {phase : Exchange}
    (turn : Turn setup state .receive next) (holds : InPhase state phase) :
    Follows state phase next := by
  cases turn with
  | @receive place pkt rest awaits received =>
      rw [holds.queue_of_active (by simp [awaits])] at received
      obtain ⟨rfl, rfl⟩ := received_request received
      refine ⟨.held pkt, ⟨.inl rfl, ?_, rfl, holds.reaped⟩, .inr .take⟩
      exact holds.target.busy (by simp) (by simp)

theorem process_follows {state next : RunState Place} {phase : Exchange} {input : Input}
    (turn : Turn setup state (.process input) next) (holds : InPhase state phase) :
    Follows state phase next := by
  cases turn with
  | @answer place pkt ack _ pktRec following held _ =>
      have carried := holds.queue_of_active (by simp [held])
      have inHand : phase = .held pkt := by
        have holding := holds.interceptor
        rwa [held] at holding
      subst inHand
      refine ⟨.prepared ack, ⟨.inl carried, ?_, rfl, holds.reaped⟩, .inr ?_⟩
      · exact holds.target.busy (by simp) (by simp)
      · have prepared : Step (conversationOf state (.held pkt)) ⟨.prepared ack, state.sent,
            (state.answered.map fun served => (served.request, served.ack)) ++ [(pkt, ack)],
            state.consumed⟩ := .prepare ack
        simpa [conversationOf] using prepared
  | spin held =>
      have carried := holds.queue_of_active (by simp [held])
      exact ⟨phase, ⟨.inl carried, holds.target, trivial, holds.reaped⟩, .inl rfl⟩
  | crash held =>
      have carried := holds.queue_of_active (by simp [held])
      exact ⟨phase, ⟨.inl carried, holds.target, trivial, holds.reaped⟩, .inl rfl⟩

theorem acknowledge_follows {state next : RunState Place} {phase : Exchange}
    (turn : Turn setup state .acknowledge next) (holds : InPhase state phase) :
    Follows state phase next := by
  have answered {ack : BlePkt} {following : Option Place}
      (answers : state.interceptor = .answering ack following) :
      phase = .prepared ack ∧ msgsnd .recvPktAck ack state.queue = queueOf (.replied ack) ∧
        TargetAt (.replied ack) state.target := by
    have carried := holds.queue_of_active (by simp [answers])
    have inHand : phase = .prepared ack := by
      have answering := holds.interceptor
      rwa [answers] at answering
    subst inHand
    refine ⟨rfl, ?_, holds.target.busy (by simp) (by simp)⟩
    rw [carried]
    rfl
  cases turn with
  | @acknowledge ack place answers =>
      obtain ⟨rfl, carried, waits⟩ := answered answers
      exact ⟨.replied ack, ⟨.inl carried, waits, trivial, holds.reaped⟩, .inr .reply⟩
  | @acknowledgeLast ack answers =>
      obtain ⟨rfl, carried, waits⟩ := answered answers
      exact ⟨.replied ack, ⟨.inl carried, waits, trivial, holds.reaped⟩, .inr .reply⟩

theorem clean_up_follows {state next : RunState Place} {phase : Exchange}
    (turn : Turn setup state .cleanUp next) (holds : InPhase state phase) :
    Follows state phase next := by
  have gone {fault : RunFault} (cleans : state.parent = .cleaning fault) : Over state.target := by
    apply holds.reaped.resolve_left
    rw [cleans]
    simp
  cases turn with
  | recreate cleans _ =>
      exact ⟨phase, ⟨.inr ⟨rfl, rfl, gone cleans⟩, holds.target, trivial, .inr (gone cleans)⟩,
        .inl rfl⟩
  | keep cleans _ =>
      exact ⟨phase, ⟨holds.queue, holds.target, holds.interceptor, .inr (gone cleans)⟩, .inl rfl⟩

theorem turn_follows {state next : RunState Place} {action : Action} {phase : Exchange}
    (turn : Turn setup state action next) (holds : InPhase state phase) :
    Follows state phase next := by
  cases action with
  | hook reception => exact hook_follows turn holds
  | consume => exact consume_follows turn holds
  | die status => exact die_follows turn holds
  | receive => exact receive_follows turn holds
  | process input => exact process_follows turn holds
  | acknowledge => exact acknowledge_follows turn holds
  | finish =>
      cases turn with
      | finish finishes =>
          have carried := holds.queue_of_active (by simp [finishes])
          exact ⟨phase, ⟨.inl carried, holds.target, trivial, holds.reaped⟩, .inl rfl⟩
  | alarm =>
      cases turn with
      | alarm _ alive =>
          refine ⟨phase, ⟨.inl (holds.queue_of_active alive), holds.target.kill sigkill, trivial,
            ?_⟩, .inl rfl⟩
          exact .inr (over_of_kill state.target sigkill)
  | waitForTarget =>
      cases turn with
      | waitForTarget _ gone =>
          exact ⟨phase, ⟨holds.queue, holds.target, holds.interceptor, .inr ⟨_, _, gone⟩⟩, .inl rfl⟩
  | cleanUp => exact clean_up_follows turn holds
  | waitForInterceptor =>
      cases turn with
      | waitForInterceptor waits _ =>
          have gone := holds.reaped.resolve_left (by simp [waits])
          exact ⟨phase, ⟨holds.queue, holds.target, holds.interceptor, .inr gone⟩, .inl rfl⟩

theorem start_in_phase (setup : Setup Place) : InPhase (RunState.start setup []) .idle :=
  ⟨.inl rfl, rfl, trivial, .inl rfl⟩

def Mirrors (state : RunState Place) (conversation : Conversation BlePkt BlePkt) : Prop :=
  ∃ phase, InPhase state phase ∧ conversation = conversationOf state phase

theorem step_simulated (state : RunState Place) (action : Action) (next : RunState Place)
    (conversation : Conversation BlePkt BlePkt) (taken : step setup state action = some next)
    (mirrors : Mirrors state conversation) :
    ∃ after, Relation.ReflTransGen Step conversation after ∧ Mirrors next after := by
  obtain ⟨phase, holds, rfl⟩ := mirrors
  obtain ⟨after, holdsAfter, same | moved⟩ := turn_follows (step_turn taken) holds
  · exact ⟨_, .refl, after, holdsAfter, same.symm⟩
  · exact ⟨_, .single moved, after, holdsAfter, rfl⟩

theorem run_in_lock_step {state : RunState Place} {actions : List Action}
    (run : fuzzOne setup [] actions = some state) :
    ∃ phase, InPhase state phase ∧ Balanced (conversationOf state phase) := by
  have start : Mirrors (RunState.start setup []) silent := ⟨.idle, start_in_phase setup, rfl⟩
  obtain ⟨conversation, steps, phase, holds, rfl⟩ := exec_simulated step_simulated run start
  exact ⟨phase, holds, steps_balanced steps silent_balanced⟩

/-- The turns so far, the place of the interceptor and the record are those of
its loop, from whatever queue the run started. -/
def Tracked (setup : Setup Place) (state : RunState Place) : Prop :=
  match state.interceptor with
  | .awaiting place | .holding place _ =>
      Serves setup.server state.answered (some place) state.pktRec
  | .answering _ next => Serves setup.server state.answered next state.pktRec
  | .finishing => Serves setup.server state.answered none state.pktRec
  | .spinning | .ended => ∃ place, Serves setup.server state.answered place state.pktRec

theorem Tracked.serves {state : RunState Place} (tracked : Tracked setup state) :
    ∃ place, Serves setup.server state.answered place state.pktRec := by
  unfold Tracked at tracked
  split at tracked
  · exact ⟨_, tracked⟩
  · exact ⟨_, tracked⟩
  · exact ⟨_, tracked⟩
  · exact ⟨_, tracked⟩
  · exact tracked
  · exact tracked

theorem step_tracked : Preserves (step setup) (Tracked setup) := by
  intro state action next taken tracked
  have stopped := tracked.serves
  cases step_turn taken with
  | receive awaits _ =>
      unfold Tracked at tracked
      rwa [awaits] at tracked
  | @answer place pkt ack input pktRec following held turn =>
      unfold Tracked at tracked
      rw [held] at tracked
      exact .answer pkt input tracked turn
  | acknowledge answers =>
      unfold Tracked at tracked
      rwa [answers] at tracked
  | acknowledgeLast answers =>
      unfold Tracked at tracked
      rwa [answers] at tracked
  | spin => exact stopped
  | crash => exact stopped
  | finish => exact stopped
  | alarm => exact stopped
  | recreate => exact stopped
  | _ => exact tracked

theorem run_tracked {queue : List Message} {state : RunState Place} {actions : List Action}
    (run : fuzzOne setup queue actions = some state) : Tracked setup state :=
  exec_preserves step_tracked run .start

structure Hooked (state : RunState Place) : Prop where
  unmutated : ∀ pkt ∈ state.sent, pkt.mutated = 0
  exits : ∀ ack ∈ state.consumed, ack.mutated = 2 → state.target = .ended (.exited 0) true

theorem sent_unmutated {reception : Reception} {sent : BlePkt} {resume : BlePkt → HookOutcome}
    (call : reception.call = .exchanges sent resume) : sent.mutated = 0 := by
  unfold Reception.call hijackPacketRecorder at call
  split_ifs at call
  cases call
  rfl

/-- The hook exits on `mutated == 2`. -/
theorem resumed_exits (reception : Reception) {ack : BlePkt} (ending : ack.mutated = 2) :
    reception.resumed ack = .ended (.exited 0) true := by
  have two : hijackApply reception.radio.maxLen reception.buf ack = .exits := by
    unfold hijackApply
    rw [ending, if_neg (by decide), if_pos rfl]
  unfold Reception.resumed Reception.call hijackPacketRecorder HookCall.bufAfter
  split_ifs
  · simp only [two]
  · rfl

theorem Hooked.keep {state next : RunState Place} (hooked : Hooked state)
    (sent : next.sent = state.sent) (consumed : next.consumed = state.consumed)
    (ended : state.target = .ended (.exited 0) true → next.target = .ended (.exited 0) true) :
    Hooked next := by
  constructor
  · rw [sent]
    exact hooked.unmutated
  · rw [consumed]
    intro ack member ending
    exact ended (hooked.exits ack member ending)

theorem step_hooked : Preserves (step setup) Hooked := by
  intro state action next taken hooked
  cases step_turn taken with
  | @hook reception sent resume outside call =>
      constructor
      · intro pkt member
        rcases List.mem_append.mp member with earlier | last
        · exact hooked.unmutated pkt earlier
        · rw [List.mem_singleton.mp last]
          exact sent_unmutated call
      · intro ack member ending
        have gone := hooked.exits ack member ending
        rw [outside] at gone
        cases gone
  | overflow outside _ =>
      refine hooked.keep rfl rfl ?_
      intro gone
      rw [outside] at gone
      cases gone
  | @consume reception ack rest inHook received =>
      refine ⟨hooked.unmutated, ?_⟩
      intro other member ending
      rcases List.mem_append.mp member with earlier | last
      · have gone := hooked.exits other earlier ending
        rw [inHook] at gone
        cases gone
      · rw [List.mem_singleton.mp last] at ending
        exact resumed_exits reception ending
  | @die status target dies =>
      refine hooked.keep rfl rfl ?_
      intro gone
      rw [gone] at dies
      cases dies
  | alarm =>
      refine hooked.keep rfl rfl ?_
      intro gone
      change state.target.kill sigkill = _
      rw [gone]
      rfl
  | _ => exact hooked.keep rfl rfl fun gone => gone

theorem run_hooked {queue : List Message} {state : RunState Place} {actions : List Action}
    (run : fuzzOne setup queue actions = some state) : Hooked state := by
  apply exec_preserves step_hooked run
  constructor
  · intro pkt member
    cases member
  · intro ack member
    cases member

theorem answered_unmutated {state : RunState Place} {phase : Exchange}
    (balanced : Balanced (conversationOf state phase)) (hooked : Hooked state) :
    ∀ served ∈ state.answered, served.request.mutated = 0 := by
  intro served member
  exact hooked.unmutated _ (balanced.answered_sent (List.mem_map_of_mem member))

end

theorem mode_marks_end (mode : Mode) (attackerStatus : WaitStatus) :
    (mode.setup attackerStatus).server.MarksEnd := by
  cases mode with
  | initCorpus => exact init_marks_end
  | fuzz build corpus => exact fuzz_marks_end build corpus

theorem phase_queue_length {Place : Type} {state : RunState Place} {phase : Exchange}
    (holds : InPhase state phase) : state.queue.length ≤ 1 := by
  rcases holds.queue with carried | ⟨empty, -⟩
  · rw [carried]
    cases phase <;> simp [queueOf]
  · rw [empty]
    exact Nat.zero_le 1

def SeedServed (build : Build) (corpus : List BlePkt) (history : List Served) : Prop :=
  Looped build corpus history ∧ (recorded history).length = corpus.length

/-- While fuzzing, the acknowledgement that ends the run follows the whole seed
and one packet sent back as it came. -/
theorem fuzz_ending {build : Build} {corpus : List BlePkt} {history : List Served}
    {place : Option (FuzzPlace corpus)} {pktRec : PktRecord} {final : Served}
    (serves : Serves (fuzzServer build corpus) history place pktRec)
    (unmutated : ∀ served ∈ history, served.request.mutated = 0) (member : final ∈ history)
    (ending : final.ack.mutated = 2) :
    ∃ front last, history = front ++ [last, final] ∧ SeedServed build corpus front ∧
      last.ack = last.request := by
  obtain ⟨index, found⟩ := List.getElem?_of_mem member
  obtain ⟨rfl, position⟩ := ending_is_last (fuzz_marks_end build corpus) serves unmutated found
    ending
  obtain ⟨front, last, other, rfl, looped, full, same, -⟩ := fuzz_serves_shape serves
  have lengths : index = front.length + 1 := by
    simp only [List.length_append, List.length_cons, List.length_nil] at position
    omega
  rw [lengths, List.getElem?_append_right (Nat.le_succ _), Nat.succ_sub (Nat.le_refl _),
    Nat.sub_self] at found
  cases found
  exact ⟨front, last, rfl, ⟨looped, full⟩, same⟩

/-- At most one message is on its way, the acknowledgements answer the packets in
order, and the one that ends the run is the last, after the whole seed. -/
theorem lock_step (mode : Mode) (attackerStatus : WaitStatus) (actions : List Action)
    (state : RunState mode.Place)
    (run : fuzzOne (mode.setup attackerStatus) [] actions = some state) :
    state.queue.length ≤ 1 ∧
      (∀ (index : Nat) (ack : BlePkt), state.consumed[index]? = some ack → ∃ served : Served,
        state.answered[index]? = some served ∧ served.ack = ack ∧
          state.sent[index]? = some served.request) ∧
      (∀ (index : Nat) (served : Served), state.answered[index]? = some served →
        served.ack.mutated = 2 → index + 1 = state.answered.length) ∧
      (∀ ack ∈ state.consumed, ack.mutated = 2 → state.target = .ended (.exited 0) true) ∧
      ∀ build corpus, mode = .fuzz build corpus → ∀ final ∈ state.answered,
        final.ack.mutated = 2 → ∃ front last, state.answered = front ++ [last, final] ∧
          SeedServed build corpus front ∧ last.ack = last.request := by
  obtain ⟨phase, holds, balanced⟩ := run_in_lock_step run
  obtain ⟨place, serves⟩ := (run_tracked run).serves
  have unmutated := answered_unmutated balanced (run_hooked run)
  refine ⟨phase_queue_length holds, ?_, ?_, (run_hooked run).exits, ?_⟩
  · intro index ack consumed
    obtain ⟨request, answered, sent⟩ := balanced.paired consumed
    simp only [conversationOf, List.getElem?_map] at answered
    obtain ⟨served, found, pair⟩ := Option.map_eq_some_iff.mp answered
    cases pair
    exact ⟨served, found, rfl, sent⟩
  · intro index served found ending
    exact (ending_is_last (mode_marks_end mode attackerStatus) serves unmutated found ending).2
  · rintro build corpus rfl final member ending
    exact fuzz_ending serves unmutated member ending

def silence : BlePkt := ⟨0, 0, 0, 0, 0, 0, Vector.replicate 255 0⟩

def shortReception : Reception where
  radio := ⟨0x50655D7A, 0, 27⟩
  stack := silence
  lenOfPayload := 2
  buf _ := 0
  rx := 1

def exchangeActions : List Action :=
  [.hook shortReception, .receive, .process ⟨fun _ => Fin.last _, fun _ => 0, 0⟩, .acknowledge,
    .consume]

def mutatedSlot : BlePkt :=
  ⟨0, 1, 1, 0x50655D7A, 9, 27, (Vector.replicate 255 0).set 0 2 |>.set 1 4 |>.set 2 0xff⟩

def pairSeed : List BlePkt :=
  [mutatedSlot, ⟨0, 1, 0, 0x50655D7A, 7, 27, Vector.replicate 255 0⟩]

def pairActions : List Action :=
  exchangeActions ++ exchangeActions ++ exchangeActions ++ exchangeActions

def pairRun : Option (RunState (FuzzPlace pairSeed)) :=
  fuzzOne (Mode.setup (.signaled sigkill) (.fuzz .random pairSeed)) [] pairActions

def endedPair (state : RunState (FuzzPlace pairSeed)) : Bool :=
  state.target matches .ended (.exited 0) true && state.consumed.length == 4

theorem pair_run_ends : pairRun.any endedPair = true := by decide +kernel

/-- The third packet is sent back as it came and the fourth one ends the run. -/
theorem pair_seed_ends : ∃ state, pairRun = some state ∧
    state.target matches .ended (.exited 0) true ∧ state.consumed.length = 4 ∧
      state.queue.length ≤ 1 ∧
      ∀ final ∈ state.answered, final.ack.mutated = 2 → ∃ front last,
        state.answered = front ++ [last, final] ∧ SeedServed .random pairSeed front ∧
          last.ack = last.request := by
  obtain ⟨state, run, facts⟩ := (Option.any_eq_true _ _).mp pair_run_ends
  obtain ⟨gone, length⟩ := Bool.and_eq_true_iff.mp facts
  have holds := lock_step (.fuzz .random pairSeed) (.signaled sigkill) pairActions state run
  exact ⟨state, run, gone, beq_iff_eq.mp length, holds.1, holds.2.2.2.2 .random pairSeed rfl⟩

end Blueman.RunLockStep
