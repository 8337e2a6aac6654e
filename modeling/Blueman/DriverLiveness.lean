import Blueman.TestDriver

/-!
# When the test driver can still come to its end

From every state of every run the thread of the OTS client can return, unless it is
stuck: it waits for a state that nothing sets, or it is about to pass over an object
without a property and no metadata are outstanding that could show another one.
-/

namespace Blueman.DriverLiveness

open Execution TestDriver

set_option autoImplicit false

def Returned (state : DriverState) : Prop := state.thread = .returned

/-- Every request is taken and completes, in any order and with any objects. -/
def Any : DriverState → Action → Prop := fun _ _ => True

/-- The thread waits in vain, or will do so after its next turn, since no request is
outstanding whose completion could show another object. -/
def StuckIn (i : Nat) (phase : Phase) (client : Client) : Prop :=
  Stranded phase client ∨
    Ready phase client ∧ ¬Supported i client.props phase ∧ client.outstanding = []

def Stuck (state : DriverState) : Prop :=
  ∃ i phase, state.thread = .retrying i phase ∧ StuckIn i phase state.client

theorem stuck_stays : Preserves step Stuck := by
  intro state action next taken ⟨i, phase, place, stuck⟩
  have lost (gone : Lost next) : Stuck next := by
    obtain ⟨j, other, there, stranded⟩ := gone
    exact ⟨j, other, there, .inl stranded⟩
  cases stuck with
  | inl stranded => exact lost (lost_stays state action next taken ⟨i, phase, place, stranded⟩)
  | inr passing =>
      obtain ⟨ready, unsupported, none⟩ := passing
      cases action with
      | subscribe =>
          cases taken
          exact ⟨i, phase, place, .inr ⟨⟨ready.state, ready.others⟩, unsupported, none⟩⟩
      | turn err =>
          simp only [step, turn, place, Option.some.injEq] at taken
          rw [← taken]
          rw [← taken] at lost
          exact lost ((ready_turn ready err).2 unsupported)
      | complete request props err =>
          have outstanding := (complete_completed taken).outstanding
          rw [none] at outstanding
          cases outstanding

theorem stuck_not_returned (state : DriverState) (stuck : Stuck state) : ¬Returned state := by
  obtain ⟨i, phase, place, -⟩ := stuck
  intro returned
  rw [returned] at place
  cases place

def fullProps : ObjectProps := ⟨true, true⟩

theorem full_supported (i : Nat) (phase : Phase) : Supported i fullProps phase := by
  cases phase with
  | readObj => exact .inl rfl
  | writeObj => rfl
  | _ => trivial

def callsLeft (i : Nat) (phase : Phase) : Nat :=
  4 * (rounds - i) +
    match phase with
    | .selectId => 4
    | .readObjMeta => 3
    | .writeObj => 2
    | .readObj => 1

theorem proceed_fewer {i j : Nat} {phase next : Phase}
    (goesOn : proceed i phase = .retrying j next) : callsLeft j next < callsLeft i phase := by
  cases phase with
  | selectId | readObjMeta | writeObj =>
      cases goesOn
      exact Nat.lt_succ_self _
  | readObj =>
      unfold proceed at goesOn
      split_ifs at goesOn with more
      cases goesOn
      simp only [callsLeft]
      omega

theorem callback_props (request : Request) (err : Int) (client : Client) :
    (request.callback err client).props = client.props := by
  have signal (done next : TestState) (client : Client) :
      (client.signal done next).props = client.props := by
    unfold Client.signal
    split_ifs <;> rfl
  have ask (request : Request) (client : Client) :
      (client.ask request err).props = client.props := by
    unfold Client.ask
    split_ifs <;> rfl
  cases request with
  | writeObjectData => exact (signal _ _ _).trans (ask _ _)
  | _ => exact signal _ _ client

theorem outstanding_completes {state : DriverState} {request : Request}
    (outstanding : request ∈ state.client.outstanding) :
    ∃ next, step state (.complete request fullProps 0) = some next ∧
      Completed request state next ∧ next.client.props = fullProps := by
  have taken : step state (.complete request fullProps 0) = some { state with
      client := request.callback 0 { state.client with
        outstanding := state.client.outstanding.erase request
        props := fullProps } } := if_pos outstanding
  exact ⟨_, taken, complete_completed taken, callback_props _ _ _⟩

theorem ready_of_tracks {state : DriverState} {i : Nat} {phase : Phase} (tracks : Tracks state)
    (place : state.thread = .retrying i phase) (here : state.client.testState = phase.awaits) :
    Ready phase state.client := by
  simp only [Tracks, place] at tracks
  exact tracks.resolve_right fun asked => asked.elsewhere here

theorem asked_gets_ready {state : DriverState} {i : Nat} {phase : Phase}
    (place : state.thread = .retrying i phase) (asked : Asked phase state.client) :
    ∃ action next, step state action = some next ∧ next.thread = .retrying i phase ∧
      Ready phase next.client ∧ next.client.props = fullProps := by
  obtain ⟨request, rest, outstanding, completes, -⟩ := asked.own
  have member : request ∈ state.client.outstanding :=
    outstanding.mem_iff.mpr List.mem_cons_self
  obtain ⟨next, taken, completed, props⟩ := outstanding_completes member
  have there := completed.thread.trans place
  have moved := completed.state
  rw [if_pos completes.symm, asked.state] at moved
  have tracks := asked_completed place completed asked
  exact ⟨_, next, taken, there, ready_of_tracks tracks there moved, props⟩

theorem metadata_show_full {state : DriverState} {i : Nat} {phase : Phase}
    (place : state.thread = .retrying i phase) (ready : Ready phase state.client)
    (unsupported : ¬Supported i state.client.props phase)
    (pending : state.client.outstanding ≠ []) :
    ∃ action next, step state action = some next ∧ next.thread = .retrying i phase ∧
      Ready phase next.client ∧ next.client.props = fullProps := by
  obtain ⟨request, member⟩ := List.exists_mem_of_ne_nil _ pending
  obtain ⟨next, taken, completed, props⟩ := outstanding_completes member
  have there := completed.thread.trans place
  have metadata := (metadata_completed completed ready.others).1
  have other : phase ≠ .readObjMeta := by
    intro same
    rw [same] at unsupported
    exact unsupported trivial
  have apart : phase.awaits ≠ .readObjMeta := by
    cases phase with
    | readObjMeta => exact absurd rfl other
    | _ => decide
  have kept := completed.state
  rw [metadata, Request.completes, ready.state, if_neg apart] at kept
  have tracks := (ready_completed place completed ready).1 other
  exact ⟨_, next, taken, there, ready_of_tracks tracks there kept, props⟩

/-- A turn that finds what it needs gets the thread to its next call, which it has asked
for, or to its end. -/
theorem supported_turn {i : Nat} {phase : Phase} {client : Client} (ready : Ready phase client)
    (supported : Supported i client.props phase) :
    (retry i phase 0 client).thread = proceed i phase ∧
      ∀ j next, proceed i phase = .retrying j next →
        Asked next (retry i phase 0 client).client := by
  have goesOn : (retry i phase 0 client).thread = proceed i phase ∧
      (retry i phase 0 client).client.testState = phase.awaits := by
    unfold retry
    rcases function_here ready.state 0 with ⟨_, _, _, asks⟩ | ⟨_, passes⟩
    · exact ⟨if_pos asks.returns, asks.state.trans ready.state⟩
    · simp only [passes]
      exact ⟨rfl, ready.state⟩
  refine ⟨goesOn.1, ?_⟩
  intro j next follows
  have tracks := (ready_turn ready 0).1 supported
  simp only [Tracks, goesOn.1, follows] at tracks
  apply tracks.resolve_left
  intro behind
  have same := goesOn.2.symm.trans behind.state
  rcases @proceed_awaits i phase with ⟨_, _, again, awaits⟩ | ⟨ends, -⟩
  · rw [follows] at again
    cases again
    rw [awaits] at same
    cases phase <;> cases same
  · rw [follows] at ends
    cases ends

theorem supported_returns (calls : Nat) {state : DriverState} {i : Nat} {phase : Phase}
    (place : state.thread = .retrying i phase) (ready : Ready phase state.client)
    (supported : Supported i state.client.props phase) (left : callsLeft i phase ≤ calls) :
    CanReach step Any Returned state := by
  induction calls generalizing state i phase with
  | zero =>
      have positive : 0 < callsLeft i phase := by
        cases phase <;> exact Nat.succ_pos _
      omega
  | succ calls induction =>
      have turned : step state (.turn 0) = some (retry i phase 0 state.client) := by
        simp only [step, turn, place]
      obtain ⟨thread, asks⟩ := supported_turn ready supported
      apply can_reach_step _ turned trivial
      cases follows : proceed i phase with
      | subscribing =>
          rcases @proceed_awaits i phase with ⟨_, _, again, -⟩ | ⟨ends, -⟩
          · rw [follows] at again
            cases again
          · rw [follows] at ends
            cases ends
      | returned => exact can_reach_here (thread.trans follows)
      | retrying j next =>
          have there := thread.trans follows
          obtain ⟨action, after, taken, stays, readied, props⟩ :=
            asked_gets_ready there (asks j next follows)
          apply can_reach_step action taken trivial
          have full : Supported j after.client.props next := by
            rw [props]
            exact full_supported j next
          have fewer := proceed_fewer follows
          exact induction stays readied full (by omega)

theorem full_returns {state : DriverState} {i : Nat} {phase : Phase}
    (shown : ∃ action next, step state action = some next ∧ next.thread = .retrying i phase ∧
      Ready phase next.client ∧ next.client.props = fullProps) :
    CanReach step Any Returned state := by
  obtain ⟨action, next, taken, there, ready, props⟩ := shown
  apply can_reach_step action taken trivial
  apply supported_returns (callsLeft i phase) there ready _ (Nat.le_refl _)
  rw [props]
  exact full_supported i phase

theorem subscribing_returns {state : DriverState} (place : state.thread = .subscribing)
    (waits : state.client.testState = .selectObj ∧ state.client.outstanding = []) :
    CanReach step Any Returned state := by
  apply can_reach_step .subscribe rfl trivial
  have turned : step { state with client := { state.client with subscribed := true } } (.turn 0) =
      some ⟨.retrying 0 .selectId, { state.client with subscribed := true }⟩ := by
    simp only [step, turn, place, if_true]
  apply can_reach_step _ turned trivial
  have ready : Ready .selectId { state.client with subscribed := true } := by
    refine ⟨waits.1, ?_⟩
    rw [OnlyMetadata, waits.2]
    exact List.forall_mem_nil _
  exact supported_returns _ rfl ready trivial (Nat.le_refl _)

theorem tracked_returns {state : DriverState} (tracks : Tracks state) (free : ¬Stuck state) :
    CanReach step Any Returned state := by
  cases place : state.thread with
  | subscribing =>
      simp only [Tracks, place] at tracks
      exact subscribing_returns place tracks
  | returned => exact can_reach_here place
  | retrying i phase =>
      simp only [Tracks, place] at tracks
      cases tracks with
      | inl ready =>
          by_cases supported : Supported i state.client.props phase
          · exact supported_returns _ place ready supported (Nat.le_refl _)
          · apply full_returns
            apply metadata_show_full place ready supported
            exact fun none => free ⟨i, phase, place, .inr ⟨ready, supported, none⟩⟩
      | inr asked => exact full_returns (asked_gets_ready place asked)

/-- In every state of every run, whatever the objects are and in whatever order the
requests complete, the thread of the driver can still return exactly if it is not stuck. -/
theorem driver_returns_iff (actions : List Action) (state : DriverState)
    (run : exec step start actions = some state) :
    CanReach step Any Returned state ↔ ¬Stuck state := by
  constructor
  · intro reaches stuck
    apply trap_never_reaches _ stuck_not_returned stuck reaches
    exact fun _ action _ _ taken => stuck_stays _ action _ taken
  · intro free
    have kept : Preserves step fun state => Tracks state ∨ Stuck state := by
      intro before action next taken holds
      cases holds with
      | inl tracks =>
          by_cases allowed : Allowed before action
          · exact .inl ((step_tracks taken tracks).1 allowed)
          · obtain ⟨i, phase, place, stranded⟩ := (step_tracks taken tracks).2 allowed
            exact .inr ⟨i, phase, place, .inl stranded⟩
      | inr stuck => exact .inr (stuck_stays before action next taken stuck)
    have reached := exec_preserves kept run (.inl ⟨rfl, rfl⟩)
    exact tracked_returns (reached.resolve_right free) free

/-- The thread is about to pass over an object that is not writable: nothing can help it
any more, although it is still in step. -/
theorem unwritable_object_never_returns : ∃ state,
    exec step start ((readObject ⟨false, true⟩).take 6) = some state ∧ InStep state ∧
      ¬CanReach step Any Returned state := by
  refine ⟨_, rfl, ?_, ?_⟩
  · intro i phase retrying
    cases retrying
    exact .inl rfl
  · intro reaches
    apply (driver_returns_iff ((readObject ⟨false, true⟩).take 6) _ rfl).mp reaches
    refine ⟨0, .writeObj, rfl, .inr ⟨⟨rfl, ?_⟩, ?_, rfl⟩⟩
    · exact List.forall_mem_nil _
    · intro supported
      cases supported

end Blueman.DriverLiveness
