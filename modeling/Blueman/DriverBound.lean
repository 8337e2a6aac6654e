import Blueman.TestDriver

/-!
# How much the test driver does

A refused call and a call out of its state leave everything as it was. Every other
step uses up some of what the driver has to do: two rounds of four calls, what these
ask for, and the metadata that are read again after a write. So every run comes to
rest, and where it rests can be said.
-/

namespace Blueman.DriverBound

open Execution TestDriver

set_option autoImplicit false

/-- The requests that are outstanding; a write asks for one more when it completes. -/
def pending (requests : List Request) : Nat :=
  requests.length + requests.count .writeObjectData

def Phase.cost : Phase → Nat
  | .writeObj => 2
  | _ => 1

def Phase.work : Phase → Nat
  | .selectId => 9
  | .readObjMeta => 7
  | .writeObj => 5
  | .readObj => 2

def Thread.work : Thread → Nat
  | .subscribing => 9 * rounds + 1
  | .retrying i phase => 9 * (rounds - (i + 1)) + Phase.work phase
  | .returned => 0

def work (state : DriverState) : Nat :=
  Thread.work state.thread + pending state.client.outstanding +
    if state.client.subscribed then 0 else 1

theorem proceed_work (i : Nat) (phase : Phase) :
    Thread.work (proceed i phase) + Phase.cost phase + 1 ≤ Thread.work (.retrying i phase) := by
  cases phase with
  | readObj =>
      unfold proceed
      split_ifs with more
      · simp only [Thread.work, Phase.work, Phase.cost]
        omega
      · simp only [Thread.work, Phase.work, Phase.cost]
        omega
  | _ => simp [proceed, Thread.work, Phase.work, Phase.cost]

theorem pending_ask (request : Request) (err : Int) (client : Client) :
    pending (client.ask request err).outstanding ≤ pending client.outstanding + pending [request] ∧
      (client.ask request err).subscribed = client.subscribed := by
  unfold Client.ask
  split_ifs
  · simp only [pending, List.length_append, List.count_append, and_true]
    omega
  · simp

/-- A call asks for no more than it costs, and one that does not return 0 leaves
everything as it was. -/
structure Costs (phase : Phase) (before : Client) (result : Int × Client) : Prop where
  refused : result.1 ≠ 0 → result.2 = before
  pending : pending result.2.outstanding ≤ pending before.outstanding + Phase.cost phase
  subscribed : result.2.subscribed = before.subscribed

theorem passes_costs (phase : Phase) (ret : Int) (client : Client) :
    Costs phase client (ret, client) := ⟨fun _ => rfl, Nat.le_add_right _ _, rfl⟩

theorem ask_costs {phase : Phase} {request : Request} (cost : pending [request] = Phase.cost phase)
    (err : Int) (client : Client) : Costs phase client (err, client.ask request err) where
  refused failed := if_neg failed
  pending := cost ▸ (pending_ask request err client).1
  subscribed := (pending_ask request err client).2

theorem function_costs (phase : Phase) (err : Int) (client : Client) :
    Costs phase client (phase.function err client) := by
  cases phase with
  | selectId =>
      change Costs _ _ (testSelectId err client)
      unfold testSelectId
      split_ifs with elsewhere first taken
      · exact passes_costs _ _ _
      · have asked := @ask_costs .selectId .selectId rfl err client
        exact ⟨fun failed => absurd taken failed, asked.pending, asked.subscribed⟩
      · exact @ask_costs .selectId .selectId rfl err client
      · exact ask_costs rfl err client
  | readObjMeta =>
      change Costs _ _ (testReadObjMeta err client)
      unfold testReadObjMeta
      split_ifs
      · exact passes_costs _ _ _
      · exact ask_costs rfl err client
  | writeObj =>
      change Costs _ _ (testWriteObj err client)
      unfold testWriteObj
      split_ifs
      · exact passes_costs _ _ _
      · exact ask_costs rfl err client
      · exact passes_costs _ _ _
  | readObj =>
      change Costs _ _ (testReadObj err client)
      unfold testReadObj
      split_ifs
      · exact passes_costs _ _ _
      · exact ask_costs rfl err client
      · exact passes_costs _ _ _

theorem retry_lowers {i : Nat} {phase : Phase} {err : Int} {client : Client}
    (changed : retry i phase err client ≠ ⟨.retrying i phase, client⟩) :
    work (retry i phase err client) < work ⟨.retrying i phase, client⟩ := by
  have costs := function_costs phase err client
  have proceeds := proceed_work i phase
  unfold retry at changed ⊢
  by_cases done : (phase.function err client).1 = 0
  · simp only [done, if_true] at changed ⊢
    have asked := costs.pending
    simp only [work, costs.subscribed]
    omega
  · simp only [done, if_false] at changed
    rw [costs.refused done] at changed
    exact absurd rfl changed

theorem turn_lowers {state next : DriverState} {err : Int} (taken : turn err state = some next)
    (changed : next ≠ state) : work next < work state := by
  obtain ⟨thread, client⟩ := state
  cases thread with
  | subscribing =>
      simp only [turn, Option.some.injEq] at taken
      rw [← taken] at changed ⊢
      split_ifs at changed ⊢ with subscribed
      · simp [work, Thread.work, Phase.work, rounds, subscribed]
      · exact absurd rfl changed
  | retrying i phase =>
      simp only [turn, Option.some.injEq] at taken
      rw [← taken] at changed ⊢
      exact retry_lowers changed
  | returned => cases taken

theorem pending_erase {requests : List Request} {request : Request}
    (member : request ∈ requests) :
    pending (requests.erase request) + pending [request] = pending requests := by
  have some : 0 < requests.length := List.length_pos_of_mem member
  have counted : 0 < requests.count request := List.count_pos_iff.mpr member
  have whole := List.length_erase_of_mem member
  unfold pending
  rw [List.count_erase, whole]
  by_cases write : request = .writeObjectData
  · rw [write] at counted ⊢
    simp
    omega
  · simp [write]
    omega

/-- The metadata are asked for again after a write, and the callbacks ask for nothing
else. -/
theorem pending_callback (request : Request) (err : Int) (client : Client) :
    pending (request.callback err client).outstanding + 1 ≤
        pending client.outstanding + pending [request] ∧
      (request.callback err client).subscribed = client.subscribed := by
  have signal (done next : TestState) (client : Client) :
      (client.signal done next).outstanding = client.outstanding ∧
        (client.signal done next).subscribed = client.subscribed := by
    unfold Client.signal
    split_ifs <;> exact ⟨rfl, rfl⟩
  cases request with
  | writeObjectData =>
      have asked := pending_ask .readObjectMetadata err client
      simp only [Request.callback, onObjDataWritten, signal]
      exact ⟨Nat.succ_le_succ asked.1, asked.2⟩
  | _ =>
      simp only [Request.callback, onObjSelected, onObjMetadataRead, onObjDataRead, signal,
        and_true]
      exact Nat.le_refl _

theorem complete_lowers {state next : DriverState} {request : Request} {props : ObjectProps}
    {err : Int} (taken : complete request props err state = some next) :
    work next < work state := by
  unfold complete at taken
  split_ifs at taken with outstanding
  cases taken
  have erased := pending_erase outstanding
  have asked := pending_callback request err { state.client with
    outstanding := state.client.outstanding.erase request
    props := props }
  have fewer := asked.1
  dsimp only at fewer
  simp only [work, asked.2]
  omega

theorem step_lowers (state : DriverState) (action : Action) (next : DriverState)
    (taken : step state action = some next) (changed : next ≠ state) :
    work next < work state := by
  cases action with
  | subscribe =>
      cases taken
      cases subscribed : state.client.subscribed with
      | true =>
          apply absurd _ changed
          rw [← subscribed]
      | false => simp [work, subscribed]
  | turn err => exact turn_lowers taken changed
  | complete request props err => exact complete_lowers taken

theorem proceed_moves (i : Nat) (phase : Phase) : proceed i phase ≠ .retrying i phase := by
  cases phase with
  | readObj =>
      unfold proceed
      split_ifs
      · intro same
        cases same
      · intro same
        cases same
  | _ =>
      intro same
      cases same

theorem ready_turn_moves {i : Nat} {phase : Phase} {client : Client}
    (here : client.testState = phase.awaits) :
    retry i phase 0 client ≠ ⟨.retrying i phase, client⟩ := by
  have returns : (phase.function 0 client).1 = 0 := by
    rcases function_here here 0 with ⟨-, request, -, asks⟩ | ⟨-, passes⟩
    · exact asks.returns
    · rw [passes]
  intro same
  have thread := congrArg DriverState.thread same
  simp only [retry, returns, if_true] at thread
  exact proceed_moves i phase thread

theorem settled_none {state : DriverState} (settled : Settled step state) :
    state.client.outstanding = [] := by
  apply List.eq_nil_iff_forall_not_mem.mpr
  intro request member
  have taken : step state (.complete request ⟨false, false⟩ 0) = some _ := if_pos member
  have same := settled _ _ taken
  have lower := complete_lowers taken
  rw [same] at lower
  exact Nat.lt_irrefl _ lower

theorem settled_iff {state : DriverState} (kept : Tracks state ∨ Lost state) :
    Settled step state ↔ state.client.subscribed = true ∧ state.client.outstanding = [] ∧
      (state.thread = .returned ∨ Lost state) := by
  constructor
  · intro settled
    have none := settled_none settled
    have subscribed : state.client.subscribed = true :=
      (congrArg (fun state => state.client.subscribed) (settled .subscribe _ rfl)).symm
    refine ⟨subscribed, none, kept.imp_left ?_⟩
    intro tracks
    cases place : state.thread with
    | returned => rfl
    | subscribing =>
        have taken : step state (.turn 0) = some ⟨.retrying 0 .selectId, state.client⟩ := by
          simp [step, turn, place, subscribed]
        have thread := congrArg DriverState.thread (settled _ _ taken)
        rw [place] at thread
        cases thread
    | retrying i phase =>
        simp only [Tracks, place] at tracks
        cases tracks with
        | inl ready =>
            have taken : step state (.turn 0) = some (retry i phase 0 state.client) := by
              simp [step, turn, place]
            have moves := @ready_turn_moves i phase _ ready.state
            rw [← place] at moves
            exact absurd (settled _ _ taken) moves
        | inr asked =>
            obtain ⟨request, rest, outstanding, -⟩ := asked.own
            rw [none] at outstanding
            cases outstanding.length_eq
  · intro rests action next taken
    obtain ⟨subscribed, empty, ends⟩ := rests
    cases action with
    | subscribe =>
        cases taken
        rw [← subscribed]
    | complete request props err => simp [step, complete, empty] at taken
    | turn err =>
        cases ends with
        | inl returned => simp [step, turn, returned] at taken
        | inr lost =>
            obtain ⟨i, phase, place, stranded⟩ := lost
            simp only [step, turn, place, idle_turn stranded.state, Option.some.injEq] at taken
            rw [← taken, ← place]

/-- Every run of the driver, whatever the objects are and in whatever order the requests
complete, changes something at most twenty times and can be brought to rest, and it is at
rest exactly if nothing is outstanding and the thread has returned or waits for a state
that nothing sets. -/
theorem driver_settles (actions : List Action) (state : DriverState)
    (run : exec step start actions = some state) :
    changes step start actions ≤ 20 ∧
      (∃ more final, exec step state more = some final ∧ Settled step final) ∧
      (Settled step state ↔ state.client.subscribed = true ∧ state.client.outstanding = [] ∧
        (state.thread = .returned ∨ Lost state)) := by
  have kept : Preserves step fun state => Tracks state ∨ Lost state := by
    intro before action next taken holds
    cases holds with
    | inl tracks =>
        by_cases allowed : Allowed before action
        · exact .inl ((step_tracks taken tracks).1 allowed)
        · exact .inr ((step_tracks taken tracks).2 allowed)
    | inr lost => exact .inr (lost_stays before action next taken lost)
  refine ⟨?_, settles step_lowers state, ?_⟩
  · exact Nat.le_trans (Nat.le_add_right _ _) (changes_le step_lowers run)
  · exact settled_iff (exec_preserves kept run (.inl ⟨rfl, rfl⟩))

/-- A round on an object that allows everything; the metadata are read again after the
write. -/
def fullRound (select : Request) : List Action :=
  [.turn 0, .complete select ⟨true, true⟩ 0, .turn 0,
    .complete .readObjectMetadata ⟨true, true⟩ 0, .turn 0,
    .complete .writeObjectData ⟨true, true⟩ 0, .complete .readObjectMetadata ⟨true, true⟩ 0,
    .turn 0, .complete .readObjectData ⟨true, true⟩ 0]

def twoRounds : List Action :=
  [.subscribe, .turn 0] ++ fullRound .selectId ++ fullRound .selectNext

/-- Both rounds on such objects are twenty changes and leave nothing to do. -/
theorem two_rounds_settle : ∃ state, exec step start twoRounds = some state ∧
    changes step start twoRounds = 20 ∧ Settled step state := by
  refine ⟨_, rfl, by decide, ?_⟩
  exact (driver_settles twoRounds _ rfl).2.2.mpr ⟨rfl, rfl, .inl rfl⟩

end Blueman.DriverBound
