import Blueman.RunSchedules

/-!
# What the target receives in a run

The buffer with which the target goes on after each packet it has received. While a
seed is collected it is always the buffer that came; while one is replayed it differs
for a packet that a slot of the seed has answered, and for no other.
-/

namespace Blueman.TargetView

open BlePacket HijackHook MutatorBuild PacketRecord RunOutcome Interceptor FuzzRun Execution
open LockStep RunLockStep RunLiveness RunSchedules

set_option autoImplicit false

def exchanged (actions : List Action) : List Reception :=
  (receptionsOf actions).filter fun reception => (sentBy reception).isSome

theorem exchanged_sent {actions : List Action} {reception : Reception} {index : Nat}
    (received : (exchanged actions)[index]? = some reception) :
    ((receptionsOf actions).filterMap sentBy)[index]? = sentBy reception := by
  have sent : (receptionsOf actions).filterMap sentBy = (exchanged actions).filterMap sentBy := by
    unfold exchanged
    rw [List.filterMap_filter]
    congr 1
    funext other
    cases sentBy other <;> rfl
  have whole : (exchanged actions).map sentBy =
      ((exchanged actions).filterMap sentBy).map some := by
    rw [List.map_filterMap_some_eq_filter_map_isSome, List.filter_eq_self.mpr]
    intro other member
    obtain ⟨original, found, rfl⟩ := List.mem_map.mp member
    exact (List.mem_filter.mp found).2
  have here : ((exchanged actions).map sentBy)[index]? = some (sentBy reception) := by
    rw [List.getElem?_map, received]
    rfl
  rw [whole, List.getElem?_map] at here
  obtain ⟨packet, found, same⟩ := Option.map_eq_some_iff.mp here
  rw [sent, found, same]

/-- The turn came after these and may have changed the packet: it has answered one of
device 1 from the next slot of the seed. -/
def AnsweredNext (mode : Mode) (earlier : List Served) (served : Served) : Prop :=
  match mode with
  | .initCorpus => False
  | .fuzz build corpus => served.request.deviceId = 1 ∧ ∃ slot,
      corpus[(recorded earlier).length]? = some slot ∧
        AnsweredFromSlot build slot (recorded earlier).length served

theorem AnsweredFromSlot.marked {build : Build} {slot : BlePkt} {index : Nat} {served : Served}
    (answered : AnsweredFromSlot build slot index served)
    (unmutated : served.request.mutated = 0) :
    served.ack.mutated = 0 ∨ served.ack.mutated = 1 := by
  obtain ⟨ret, after, run, same⟩ := answered
  have copied := copy_ble_pkt_mutated served.request slot
  have ran := run_mutator_mutated run
  rw [same] at ran
  rw [unmutated] at copied
  cases ran with
  | inl kept =>
      rw [kept]
      exact copied
  | inr one => exact .inr one

/-- A turn sends the packet back unmarked, or ends the run, or answers from the next
slot. -/
theorem turn_marks (mode : Mode) (attackerStatus : WaitStatus) {earlier : List Served}
    {place : mode.Place} {pktRec added : PktRecord} {request ack : BlePkt} {input : Input}
    {next : Option mode.Place}
    (serves : Serves (mode.setup attackerStatus).server earlier (some place) pktRec)
    (turn : (mode.setup attackerStatus).server.react place pktRec request input =
      .answers ack added next) (unmutated : request.mutated = 0) :
    ack.mutated = 0 ∨ ack.mutated = 2 ∨
      ack.mutated = 1 ∧ AnsweredNext mode earlier ⟨request, input, ack⟩ := by
  cases mode with
  | initCorpus =>
      cases place with
      | loop vars =>
          obtain ⟨same, -⟩ := init_loop_turn turn
          left
          rw [same, unmutated]
      | terminating maxDeltaIndex =>
          cases turn
          exact .inr (.inl rfl)
  | fuzz build corpus =>
      have shape := fuzz_serves_shape serves
      cases place with
      | loop i =>
          cases fuzz_loop_turn turn with
          | inl slot =>
              obtain ⟨device, answered, -⟩ := slot
              cases AnsweredFromSlot.marked answered unmutated with
              | inl zero => exact .inl zero
              | inr one =>
                  refine .inr (.inr ⟨one, device, corpus.get i, ?_, ?_⟩)
                  · rw [shape.2]
                    exact List.getElem?_eq_getElem i.isLt
                  · rw [shape.2]
                    exact answered
          | inr passed =>
              left
              rw [passed.2.1, unmutated]
      | trailing =>
          cases turn
          exact .inl unmutated
      | terminating =>
          cases turn
          exact .inr (.inl rfl)

theorem serves_turn {Place : Type} {server : Server Place} {history : List Served}
    {place : Option Place} {pktRec : PktRecord} (serves : Serves server history place pktRec)
    {index : Nat} {served : Served} (found : history[index]? = some served) :
    ∃ before now added next, Serves server (history.take index) (some before) now ∧
      server.react before now served.request served.input = .answers served.ack added next := by
  have inside := (List.getElem?_eq_some_iff.mp found).1
  have front : history.take (index + 1) = history.take index ++ [served] := by
    rw [List.take_add_one, found]
    rfl
  obtain ⟨_, _, shorter⟩ := serves_front serves (List.take_prefix (index + 1) history)
  rw [front] at shorter
  generalize whole : history.take index ++ [served] = turns at shorter
  cases shorter with
  | start => simp at whole
  | @answer _ before now _ _ _ _ _ serves turn =>
      obtain ⟨same, last⟩ := List.append_inj' whole rfl
      cases last
      rw [same]
      exact ⟨before, now, _, _, serves, turn⟩

theorem sent_call {reception : Reception} {sent : BlePkt}
    (accepted : sentBy reception = some sent) :
    reception.call = .exchanges sent (hijackApply reception.radio.maxLen reception.buf) := by
  unfold sentBy at accepted
  unfold Reception.call hijackPacketRecorder at accepted ⊢
  split_ifs at accepted ⊢
  cases accepted
  rfl

theorem buf_after_unmarked {reception : Reception} {sent ack : BlePkt}
    (accepted : sentBy reception = some sent) (unmarked : ack.mutated = 0) :
    reception.call.bufAfter ack = some reception.buf := by
  have plain : hijackApply reception.radio.maxLen reception.buf ack = .resumes reception.buf := by
    unfold hijackApply
    rw [unmarked, if_neg (by decide), if_neg (by decide)]
  simp only [sent_call accepted, HookCall.bufAfter, plain]

theorem buf_after_ending {reception : Reception} {sent ack : BlePkt}
    (accepted : sentBy reception = some sent) (ending : ack.mutated = 2) :
    reception.call.bufAfter ack = none := by
  have exits : hijackApply reception.radio.maxLen reception.buf ack = .exits := by
    unfold hijackApply
    rw [ending, if_neg (by decide), if_pos rfl]
  simp only [sent_call accepted, HookCall.bufAfter, exits]

/-- With what the target goes on after a packet: with what it has received, or not at all
after the last one, or with a mutation, when the packet has been answered from the next
slot of the seed. -/
inductive Seen (mode : Mode) (state : RunState mode.Place) (index : Nat) (reception : Reception)
    (served : Served) : Prop
  | unchanged (same : reception.call.bufAfter served.ack = some reception.buf)
  | exited (gone : reception.call.bufAfter served.ack = none)
      (last : index + 1 = state.answered.length)
      (ended : state.target = .ended (.exited 0) true)
  | mutated (marked : served.ack.mutated = 1)
      (next : AnsweredNext mode (state.answered.take index) served)

/-- Every packet of a run reaches the target as it came, except for those that the next
slot of the seed has answered and for the last one, on which the target exits: while a
seed is collected nothing is changed at all. -/
theorem target_view (mode : Mode) (attackerStatus : WaitStatus) (actions : List Action)
    (state : RunState mode.Place)
    (run : fuzzOne (mode.setup attackerStatus) [] actions = some state) (index : Nat)
    (reception : Reception) (ack : BlePkt)
    (received : (exchanged actions)[index]? = some reception)
    (consumed : state.consumed[index]? = some ack) :
    ∃ served, state.answered[index]? = some served ∧ served.ack = ack ∧
      sentBy reception = some served.request ∧ Seen mode state index reception served := by
  obtain ⟨phase, -, balanced⟩ := run_in_lock_step run
  obtain ⟨request, answered, sent⟩ := balanced.paired consumed
  simp only [conversationOf, List.getElem?_map] at answered sent
  obtain ⟨served, found, pair⟩ := Option.map_eq_some_iff.mp answered
  cases pair
  have accepted : sentBy reception = some served.request := by
    rw [← exchanged_sent received, ← sent, exec_sent run]
    rfl
  refine ⟨served, found, rfl, accepted, ?_⟩
  have unmutated := answered_unmutated balanced (run_hooked run) served (List.mem_of_getElem? found)
  obtain ⟨place, serves⟩ := (run_tracked run).serves
  obtain ⟨before, now, added, next, earlier, turn⟩ := serves_turn serves found
  have marks := turn_marks mode attackerStatus earlier turn unmutated
  cases marks with
  | inl unmarked => exact .unchanged (buf_after_unmarked accepted unmarked)
  | inr marked =>
      cases marked with
      | inl ending =>
          have ends := mode_marks_end mode attackerStatus
          have last := (ending_answer_last ends run found ending).1
          have told := (run_hooked run).exits served.ack (List.mem_of_getElem? consumed) ending
          exact .exited (buf_after_ending accepted ending) last told
      | inr mutated => exact .mutated mutated.1 mutated.2

def mutatedFirst (state : RunState (FuzzPlace pairSeed)) : Bool :=
  state.consumed[0]?.any fun ack => ack.mutated == 1

theorem pair_run_mutated : pairRun.any mutatedFirst = true := by decide +kernel

/-- The first packet of a fuzzing run is answered from a mutated slot. -/
theorem mutated_packet_seen : ∃ (state : RunState (FuzzPlace pairSeed)) (served : Served),
    pairRun = some state ∧ served.ack.mutated = 1 ∧
      Seen (.fuzz .random pairSeed) state 0 shortReception served := by
  obtain ⟨state, run, mutated⟩ := (Option.any_eq_true _ _).mp pair_run_mutated
  obtain ⟨ack, consumed, marked⟩ := (Option.any_eq_true _ _).mp mutated
  obtain ⟨served, -, same, -, seen⟩ := target_view (.fuzz .random pairSeed) (.signaled sigkill)
    pairActions state run 0 shortReception ack rfl consumed
  exact ⟨state, served, run, same ▸ beq_iff_eq.mp marked, seen⟩

end Blueman.TargetView
