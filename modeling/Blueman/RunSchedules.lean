import Blueman.RunLiveness

/-!
# Runs that differ in their schedule only

What the target receives and what each turn of the interceptor takes from outside
is the environment of a run. Two runs in the same environment may interleave the
processes in any way and be cut short anywhere: as far as both have come, they
have sent, answered, consumed and recorded the same packets.
-/

namespace Blueman.RunSchedules

open BlePacket HijackHook MutatorBuild PacketRecord RunOutcome Interceptor FuzzRun Execution
open LockStep RunLockStep RunLiveness

set_option autoImplicit false

section

variable {Place : Type} {server : Server Place}

theorem serves_determined {left right : List Served} {placeLeft placeRight : Option Place}
    {recLeft recRight : PktRecord} (first : Serves server left placeLeft recLeft)
    (second : Serves server right placeRight recRight)
    (requests : left.map Served.request = right.map Served.request)
    (inputs : left.map Served.input = right.map Served.input) :
    left = right ∧ placeLeft = placeRight ∧ recLeft = recRight := by
  induction first generalizing right placeRight recRight with
  | start =>
      cases second with
      | start => exact ⟨rfl, rfl, rfl⟩
      | answer => simp at requests
  | @answer history place pktRec request input ack added next _ turn induction =>
      cases second with
      | start => simp at requests
      | @answer other otherPlace otherRec request' input' ack' added' next' earlier turn' =>
          simp only [List.map_append, List.map_cons, List.map_nil] at requests inputs
          obtain ⟨requests, lastRequest⟩ := List.append_inj' requests rfl
          obtain ⟨inputs, lastInput⟩ := List.append_inj' inputs rfl
          obtain ⟨rfl, same, rfl⟩ := induction earlier requests inputs
          cases same
          cases lastRequest
          cases lastInput
          rw [turn] at turn'
          cases turn'
          exact ⟨rfl, rfl, rfl⟩

theorem serves_front {front history : List Served} {place : Option Place} {pktRec : PktRecord}
    (serves : Serves server history place pktRec) (shorter : front <+: history) :
    ∃ place pktRec, Serves server front place pktRec := by
  induction serves with
  | start =>
      rw [List.prefix_nil.mp shorter]
      exact ⟨_, _, .start⟩
  | answer request input earlier turn induction =>
      rcases List.prefix_concat_iff.mp shorter with same | before
      · rw [same]
        exact ⟨_, _, .answer request input earlier turn⟩
      · exact induction before

/-- Of two runs with requests and inputs in common the shorter one is the beginning
of the other. -/
theorem serves_shorter {left right : List Served} {placeLeft placeRight : Option Place}
    {recLeft recRight : PktRecord} (first : Serves server left placeLeft recLeft)
    (second : Serves server right placeRight recRight)
    (requests : left.map Served.request <+: right.map Served.request)
    (inputs : left.map Served.input <+: right.map Served.input) : left <+: right := by
  obtain ⟨place, pktRec, front⟩ := serves_front second (List.take_prefix left.length right)
  have beginning := serves_determined first front
  rw [List.prefix_iff_eq_take] at requests inputs
  rw [List.map_take, List.map_take] at beginning
  rw [List.length_map] at requests inputs
  obtain ⟨same, -, -⟩ := beginning requests inputs
  rw [same]
  exact List.take_prefix _ _

end

def receptionsOf : List Action → List Reception
  | [] => []
  | .hook reception :: rest => reception :: receptionsOf rest
  | _ :: rest => receptionsOf rest

def inputsOf : List Action → List Input
  | [] => []
  | .process input :: rest => input :: inputsOf rest
  | _ :: rest => inputsOf rest

/-- The record of a reception; none is sent of a packet that is too long. -/
def sentBy (reception : Reception) : Option BlePkt :=
  match reception.call with
  | .exchanges sent _ => some sent
  | .spins => none

section

variable {Place : Type} {setup : Setup Place}

theorem exec_sent {state final : RunState Place} {actions : List Action}
    (run : exec (step setup) state actions = some final) :
    final.sent = state.sent ++ (receptionsOf actions).filterMap sentBy := by
  induction actions generalizing state with
  | nil =>
      cases run
      simp [receptionsOf]
  | cons action rest induction =>
      obtain ⟨next, taken, run⟩ := exec_cons.mp run
      rw [induction run]
      cases step_turn taken with
      | hook _ call => simp [receptionsOf, sentBy, call]
      | overflow _ call => simp [receptionsOf, sentBy, call]
      | _ => rfl

theorem exec_stopped {state final : RunState Place} {actions : List Action}
    (run : exec (step setup) state actions = some final)
    (stopped : state.interceptor = .spinning ∨ state.interceptor = .ended) :
    final.answered = state.answered := by
  induction actions generalizing state with
  | nil =>
      cases run
      rfl
  | cons action rest induction =>
      obtain ⟨next, taken, run⟩ := exec_cons.mp run
      have unchanged : next.answered = state.answered ∧
          (next.interceptor = .spinning ∨ next.interceptor = .ended) := by
        cases step_turn taken with
        | receive awaits _ => simp [awaits] at stopped
        | answer held _ => simp [held] at stopped
        | spin held => simp [held] at stopped
        | crash held => simp [held] at stopped
        | acknowledge answers => simp [answers] at stopped
        | acknowledgeLast answers => simp [answers] at stopped
        | finish finishes => simp [finishes] at stopped
        | alarm => exact ⟨rfl, .inr rfl⟩
        | recreate => exact ⟨rfl, .inr rfl⟩
        | _ => exact ⟨rfl, stopped⟩
      rw [induction run unchanged.2, unchanged.1]

theorem exec_inputs {state final : RunState Place} {actions : List Action}
    (run : exec (step setup) state actions = some final) :
    final.answered.map Served.input <+:
      state.answered.map Served.input ++ inputsOf actions := by
  induction actions generalizing state with
  | nil =>
      cases run
      exact List.prefix_append _ _
  | cons action rest induction =>
      obtain ⟨next, taken, run⟩ := exec_cons.mp run
      have later := induction run
      cases step_turn taken with
      | answer => simpa [inputsOf] using later
      | spin =>
          rw [exec_stopped run (.inl rfl)]
          exact List.prefix_append _ _
      | crash =>
          rw [exec_stopped run (.inr rfl)]
          exact List.prefix_append _ _
      | _ => exact later

/-- One list is the beginning of the other. -/
def Agree {Item : Type} (left right : List Item) : Prop := left <+: right ∨ right <+: left

/-- The receptions and the inputs of the run are the first ones of the environment. -/
structure TakesPlace (receptions : List Reception) (inputs : List Input)
    (actions : List Action) : Prop where
  receptions : receptionsOf actions <+: receptions
  inputs : inputsOf actions <+: inputs

theorem agree_of_prefix {Item : Type} {left right whole : List Item} (first : left <+: whole)
    (second : right <+: whole) : Agree left right :=
  List.prefix_or_prefix_of_prefix first second

theorem Agree.map {Item Value : Type} {left right : List Item} (agree : Agree left right)
    (value : Item → Value) : Agree (left.map value) (right.map value) := by
  rcases agree with shorter | longer
  · exact .inl (shorter.map value)
  · exact .inr (longer.map value)

theorem Agree.fronts {Item : Type} {left right front back : List Item} (agree : Agree left right)
    (first : front <+: left) (second : back <+: right) : Agree front back := by
  rcases agree with shorter | longer
  · exact agree_of_prefix (first.trans shorter) second
  · exact agree_of_prefix first (second.trans longer)

theorem Agree.of_length {Item : Type} {left right : List Item} (agree : Agree left right)
    (same : left.length = right.length) : left = right := by
  rcases agree with shorter | longer
  · exact shorter.eq_of_length same
  · exact (longer.eq_of_length same.symm).symm

theorem runs_sent_agree {receptions : List Reception} {inputs : List Input}
    {first second : List Action} {left right : RunState Place}
    (runLeft : fuzzOne setup [] first = some left) (runRight : fuzzOne setup [] second = some right)
    (here : TakesPlace receptions inputs first) (there : TakesPlace receptions inputs second) :
    Agree left.sent right.sent := by
  rw [exec_sent runLeft, exec_sent runRight]
  exact agree_of_prefix (here.receptions.filterMap sentBy) (there.receptions.filterMap sentBy)

theorem answered_requests {state : RunState Place} {actions : List Action}
    (run : fuzzOne setup [] actions = some state) :
    state.answered.map Served.request <+: state.sent := by
  obtain ⟨phase, -, balanced⟩ := run_in_lock_step run
  have requests := balanced.requests
  simp only [conversationOf, List.map_map] at requests
  rw [requests]
  exact List.prefix_append _ _

theorem consumed_answers {state : RunState Place} {actions : List Action}
    (run : fuzzOne setup [] actions = some state) :
    state.consumed <+: state.answered.map Served.ack := by
  obtain ⟨phase, -, balanced⟩ := run_in_lock_step run
  have replies := balanced.replies
  simp only [conversationOf, List.map_map] at replies
  change state.answered.map Served.ack = _ at replies
  rw [replies]
  exact List.prefix_append _ _

theorem runs_answered_agree {receptions : List Reception} {inputs : List Input}
    {first second : List Action} {left right : RunState Place}
    (runLeft : fuzzOne setup [] first = some left) (runRight : fuzzOne setup [] second = some right)
    (here : TakesPlace receptions inputs first) (there : TakesPlace receptions inputs second) :
    Agree left.answered right.answered := by
  obtain ⟨placeLeft, servesLeft⟩ := (run_tracked runLeft).serves
  obtain ⟨placeRight, servesRight⟩ := (run_tracked runRight).serves
  have requests : Agree (left.answered.map Served.request) (right.answered.map Served.request) :=
    (runs_sent_agree runLeft runRight here there).fronts (answered_requests runLeft)
      (answered_requests runRight)
  have taken {actions : List Action} {state : RunState Place}
      (run : fuzzOne setup [] actions = some state)
      (place : TakesPlace receptions inputs actions) :
      state.answered.map Served.input <+: inputs :=
    (exec_inputs run).trans place.inputs
  have drawn : Agree (left.answered.map Served.input) (right.answered.map Served.input) :=
    agree_of_prefix (taken runLeft here) (taken runRight there)
  have shorter {Value : Type} {value : Served → Value} {less more : List Served}
      (agree : Agree (less.map value) (more.map value)) (lengths : less.length ≤ more.length) :
      less.map value <+: more.map value := by
    rcases agree with fits | fits
    · exact fits
    · have same : (more.map value).length = (less.map value).length := by
        apply Nat.le_antisymm fits.length_le
        simpa using lengths
      exact fits.eq_of_length same ▸ List.prefix_refl _
  rcases Nat.le_total left.answered.length right.answered.length with less | less
  · exact .inl (serves_shorter servesLeft servesRight (shorter requests less) (shorter drawn less))
  · exact .inr (serves_shorter servesRight servesLeft (shorter requests.symm less)
      (shorter drawn.symm less))

theorem runs_record_agree {first second : List Action} {left right : RunState Place}
    (runLeft : fuzzOne setup [] first = some left) (runRight : fuzzOne setup [] second = some right)
    (same : left.answered = right.answered) : left.pktRec = right.pktRec := by
  obtain ⟨placeLeft, servesLeft⟩ := (run_tracked runLeft).serves
  obtain ⟨placeRight, servesRight⟩ := (run_tracked runRight).serves
  rw [same] at servesLeft
  exact (serves_determined servesLeft servesRight rfl rfl).2.2

theorem exited_consumed {state : RunState Place} {actions : List Action}
    (run : fuzzOne setup [] actions = some state)
    (gone : state.target = .ended (.exited 0) true) :
    state.consumed.length = state.answered.length := by
  obtain ⟨phase, holds, balanced⟩ := run_in_lock_step run
  have idle : phase = .idle := by
    have placed := holds.target
    rwa [gone] at placed
  subst idle
  have replies := congrArg List.length balanced.replies
  simpa [conversationOf] using replies.symm

theorem exited_longest (marks : setup.server.MarksEnd) {first second : List Action}
    {left right : RunState Place} (runLeft : fuzzOne setup [] first = some left)
    (runRight : fuzzOne setup [] second = some right)
    (gone : left.target = .ended (.exited 0) true) (shorter : left.answered <+: right.answered) :
    left.answered.length = right.answered.length := by
  obtain ⟨index, served, found, ending⟩ := told_answered runLeft gone
  have later : right.answered[index]? = some served := by
    obtain ⟨rest, whole⟩ := shorter
    rw [← whole, List.getElem?_append_left (List.getElem?_eq_some_iff.mp found).1]
    exact found
  rw [← (ending_answer_last marks runLeft found ending).1]
  exact (ending_answer_last marks runRight later ending).1

end

/-- Two runs in one environment agree as far as both have come, whatever their
schedules are and wherever they are cut short; once both targets have been told
to exit they have done the same. -/
theorem schedules_agree (mode : Mode) (attackerStatus : WaitStatus) (receptions : List Reception)
    (inputs : List Input) (first second : List Action) (left right : RunState mode.Place)
    (runLeft : fuzzOne (mode.setup attackerStatus) [] first = some left)
    (runRight : fuzzOne (mode.setup attackerStatus) [] second = some right)
    (here : TakesPlace receptions inputs first) (there : TakesPlace receptions inputs second) :
    Agree left.sent right.sent ∧ Agree left.answered right.answered ∧
      Agree left.consumed right.consumed ∧
      (left.answered.length = right.answered.length → left.pktRec = right.pktRec) ∧
      (left.target = .ended (.exited 0) true → right.target = .ended (.exited 0) true →
        left.answered = right.answered ∧ left.consumed = right.consumed ∧
          left.pktRec = right.pktRec) := by
  have answered := runs_answered_agree runLeft runRight here there
  have consumed : Agree left.consumed right.consumed :=
    (answered.map Served.ack).fronts (consumed_answers runLeft) (consumed_answers runRight)
  refine ⟨runs_sent_agree runLeft runRight here there, answered, consumed, ?_, ?_⟩
  · intro same
    exact runs_record_agree runLeft runRight (answered.of_length same)
  · intro goneLeft goneRight
    have marks := mode_marks_end mode attackerStatus
    have lengths : left.answered.length = right.answered.length := by
      rcases answered with shorter | longer
      · exact exited_longest marks runLeft runRight goneLeft shorter
      · exact (exited_longest marks runRight runLeft goneRight longer).symm
    have same := answered.of_length lengths
    refine ⟨same, consumed.of_length ?_, runs_record_agree runLeft runRight same⟩
    rw [exited_consumed runLeft goneLeft, exited_consumed runRight goneRight, lengths]

def hastyActions : List Action :=
  exchangeActions ++ exchangeActions ++ exchangeActions ++
    (exchangeActions.take 4 ++ [.finish, .consume])

def hastyRun : Option (RunState (FuzzPlace pairSeed)) :=
  fuzzOne (Mode.setup (.signaled sigkill) (.fuzz .random pairSeed)) [] hastyActions

theorem hasty_run_ends : hastyRun.any endedPair = true := by decide +kernel

theorem ended_pair_told {state : RunState (FuzzPlace pairSeed)} (ended : endedPair state = true) :
    state.target = .ended (.exited 0) true := by
  have gone := (Bool.and_eq_true_iff.mp ended).1
  split at gone
  · assumption
  · cases gone

/-- Two packets have been mutated and recorded, in the same way in both runs. -/
theorem hasty_agrees : ∃ left right, pairRun = some left ∧ hastyRun = some right ∧
    left.consumed = right.consumed ∧ left.consumed.length = 4 ∧ left.pktRec = right.pktRec := by
  obtain ⟨left, runLeft, endedLeft⟩ := (Option.any_eq_true _ _).mp pair_run_ends
  obtain ⟨right, runRight, endedRight⟩ := (Option.any_eq_true _ _).mp hasty_run_ends
  have holds := schedules_agree (.fuzz .random pairSeed) (.signaled sigkill)
    (List.replicate 4 shortReception) (inputsOf hastyActions) pairActions hastyActions left right
    runLeft runRight ⟨List.prefix_refl _, List.prefix_refl _⟩
    ⟨List.prefix_refl _, List.prefix_refl _⟩
  have same := holds.2.2.2.2 (ended_pair_told endedLeft) (ended_pair_told endedRight)
  exact ⟨left, right, runLeft, runRight, same.2.1,
    beq_iff_eq.mp (Bool.and_eq_true_iff.mp endedLeft).2, same.2.2⟩

end Blueman.RunSchedules
