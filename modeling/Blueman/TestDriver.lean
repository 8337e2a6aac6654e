import Blueman.Library.Execution
import Mathlib.Data.List.Perm.Basic

/-!
# The test driver of the OTS client

The thread and the callbacks that the patch adds to the sample client. A phase
function returns -1 until `test_state` is its own, and 0 once its request has
been taken; the callback of the request then sets the next state. The thread
moves on when the function returns 0. On an object without the property,
`test_write_obj` and `test_read_obj` return 0 without a request, and nothing sets
the state that the thread goes on to wait for.
-/

namespace Blueman.TestDriver

open Execution

set_option autoImplicit false

inductive TestState
  | selectObj
  | readObjMeta
  | writeObj
  | readObj
deriving DecidableEq

/-- The properties of `otc.cur_object` that are asked for. -/
structure ObjectProps where
  write : Bool
  read : Bool
deriving DecidableEq

inductive Request
  | selectId
  | selectNext
  | readObjectMetadata
  | writeObjectData
  | readObjectData
deriving DecidableEq

/-- What the thread and the callbacks share, and the requests that the library
has taken and not yet completed. -/
structure Client where
  testState : TestState
  subscribed : Bool
  firstSelected : Bool
  props : ObjectProps
  outstanding : List Request
deriving DecidableEq

/-- The library takes a request, and returns 0, or refuses it. -/
def Client.ask (request : Request) (err : Int) (client : Client) : Client :=
  if err = 0 then { client with outstanding := client.outstanding ++ [request] } else client

def testSelectId (err : Int) (client : Client) : Int × Client :=
  if client.testState ≠ .selectObj then (-1, client)
  else if !client.firstSelected then
    let asked := client.ask .selectId err
    (err, if err = 0 then { asked with firstSelected := true } else asked)
  else (err, client.ask .selectNext err)

def testReadObjMeta (err : Int) (client : Client) : Int × Client :=
  if client.testState ≠ .readObjMeta then (-1, client)
  else (err, client.ask .readObjectMetadata err)

def testWriteObj (err : Int) (client : Client) : Int × Client :=
  if client.testState ≠ .writeObj then (-1, client)
  else if client.props.write then (err, client.ask .writeObjectData err)
  else (0, client)

def testReadObj (err : Int) (client : Client) : Int × Client :=
  if client.testState ≠ .readObj then (-1, client)
  else if client.props.read then (err, client.ask .readObjectData err)
  else (0, client)

/-- A callback moves `test_state` on if it is the one the callback completes. -/
def Client.signal (done next : TestState) (client : Client) : Client :=
  if client.testState = done then { client with testState := next } else client

def onObjSelected (client : Client) : Client := client.signal .selectObj .readObjMeta

def onObjMetadataRead (client : Client) : Client := client.signal .readObjMeta .writeObj

/-- It reads the metadata again, for which it has its own error message. -/
def onObjDataWritten (err : Int) (client : Client) : Client :=
  (client.ask .readObjectMetadata err).signal .writeObj .readObj

/-- The call that completes the read; the ones before it change nothing here. -/
def onObjDataRead (client : Client) : Client := client.signal .readObj .selectObj

/-- What completes a request; `err` is the answer to a request of its own. -/
def Request.callback (request : Request) (err : Int) : Client → Client :=
  match request with
  | .selectId | .selectNext => onObjSelected
  | .readObjectMetadata => onObjMetadataRead
  | .writeObjectData => onObjDataWritten err
  | .readObjectData => onObjDataRead

inductive Phase
  | selectId
  | readObjMeta
  | writeObj
  | readObj
deriving DecidableEq

def Phase.function : Phase → Int → Client → Int × Client
  | .selectId => testSelectId
  | .readObjMeta => testReadObjMeta
  | .writeObj => testWriteObj
  | .readObj => testReadObj

/-- Where `thread_test_entry` is: in the loop on `subscribed`, in the loop on one
of the functions in round `i`, or behind the last round. -/
inductive Thread
  | subscribing
  | retrying (i : Nat) (phase : Phase)
  | returned
deriving DecidableEq

def rounds : Nat := 2

def proceed (i : Nat) : Phase → Thread
  | .selectId => .retrying i .readObjMeta
  | .readObjMeta => .retrying i .writeObj
  | .writeObj => .retrying i .readObj
  | .readObj => if i + 1 < rounds then .retrying (i + 1) .selectId else .returned

structure DriverState where
  thread : Thread
  client : Client
deriving DecidableEq

/-- What a completion leaves in `otc.cur_object` is up to the library. -/
inductive Action
  | subscribe
  | turn (err : Int)
  | complete (request : Request) (props : ObjectProps) (err : Int)

/-- One turn of the loop on a function; `err` is the library's answer if it is asked. -/
def retry (i : Nat) (phase : Phase) (err : Int) (client : Client) : DriverState :=
  let (ret, after) := phase.function err client
  ⟨if ret = 0 then proceed i phase else .retrying i phase, after⟩

def turn (err : Int) (state : DriverState) : Option DriverState :=
  match state.thread with
  | .subscribing =>
      some (if state.client.subscribed then { state with thread := .retrying 0 .selectId } else state)
  | .retrying i phase => some (retry i phase err state.client)
  | .returned => none

/-- Each request that was taken completes once. -/
def complete (request : Request) (props : ObjectProps) (err : Int) (state : DriverState) :
    Option DriverState :=
  if request ∈ state.client.outstanding then
    let completed := { state.client with
      outstanding := state.client.outstanding.erase request
      props := props }
    some { state with client := request.callback err completed }
  else none

def step (state : DriverState) : Action → Option DriverState
  | .subscribe => some { state with client := { state.client with subscribed := true } }
  | .turn err => turn err state
  | .complete request props err => complete request props err state

def start : DriverState :=
  ⟨.subscribing, ⟨.selectObj, false, false, ⟨false, false⟩, []⟩⟩

/-- The state in which a phase function does something. -/
def Phase.awaits : Phase → TestState
  | .selectId => .selectObj
  | .readObjMeta => .readObjMeta
  | .writeObj => .writeObj
  | .readObj => .readObj

/-- `test_state` is the one that the thread waits for, or a request is outstanding
whose callback sets it. -/
def InStep (state : DriverState) : Prop :=
  ∀ i phase, state.thread = .retrying i phase →
    state.client.testState = phase.awaits ∨
      ∃ request ∈ state.client.outstanding, ∀ err,
        (request.callback err state.client).testState = phase.awaits

/-- A function that is called in its state finds the property it needs, or there
is no round to come. -/
def Supported (i : Nat) (props : ObjectProps) : Phase → Prop
  | .selectId | .readObjMeta => True
  | .writeObj => props.write = true
  | .readObj => props.read = true ∨ rounds ≤ i + 1

/-- A turn finds the property that it needs, and metadata come, in the state in
which they move `test_state`, only after the thread has asked for them. -/
def Allowed (state : DriverState) : Action → Prop
  | .subscribe => True
  | .turn _ =>
      ∀ i phase, state.thread = .retrying i phase → state.client.testState = phase.awaits →
        Supported i state.client.props phase
  | .complete request _ _ =>
      request = .readObjectMetadata → state.client.testState = .readObjMeta →
        ∀ i, state.thread ≠ .retrying i .readObjMeta

def Request.completes : Request → TestState
  | .selectId | .selectNext => .selectObj
  | .readObjectMetadata => .readObjMeta
  | .writeObjectData => .writeObj
  | .readObjectData => .readObj

def TestState.next : TestState → TestState
  | .selectObj => .readObjMeta
  | .readObjMeta => .writeObj
  | .writeObj => .readObj
  | .readObj => .selectObj

@[simp] theorem ask_state (request : Request) (err : Int) (client : Client) :
    (client.ask request err).testState = client.testState := by
  unfold Client.ask
  split_ifs <;> rfl

theorem callback_state (request : Request) (err : Int) (client : Client) :
    (request.callback err client).testState =
      if client.testState = request.completes then client.testState.next
      else client.testState := by
  have signal (done next : TestState) (client : Client) :
      (client.signal done next).testState =
        if client.testState = done then next else client.testState := by
    unfold Client.signal
    split_ifs <;> rfl
  cases request <;>
    simp only [Request.callback, onObjSelected, onObjMetadataRead, onObjDataWritten, onObjDataRead,
      Request.completes, signal, ask_state] <;>
    split_ifs with here
  all_goals simp [here, TestState.next]

theorem callback_outstanding (request : Request) (err : Int) (client : Client) :
    ∃ again, (request.callback err client).outstanding = client.outstanding ++ again ∧
      ∀ other ∈ again, other = .readObjectMetadata := by
  have signal (done next : TestState) (client : Client) :
      (client.signal done next).outstanding = client.outstanding := by
    unfold Client.signal
    split_ifs <;> rfl
  have nothing : ∃ again, client.outstanding = client.outstanding ++ again ∧
      ∀ other ∈ again, other = .readObjectMetadata := ⟨[], by simp, by simp⟩
  cases request with
  | writeObjectData =>
      simp only [Request.callback, onObjDataWritten, signal]
      unfold Client.ask
      split_ifs
      · exact ⟨[.readObjectMetadata], rfl, by simp⟩
      · exact nothing
  | _ =>
      simp only [Request.callback, onObjSelected, onObjMetadataRead, onObjDataRead, signal]
      exact nothing

theorem metadata_iff {request : Request} :
    request.completes = .readObjMeta ↔ request = .readObjectMetadata := by
  cases request <;> simp [Request.completes]

def OnlyMetadata (requests : List Request) : Prop :=
  ∀ request ∈ requests, request = .readObjectMetadata

structure Ready (phase : Phase) (client : Client) : Prop where
  state : client.testState = phase.awaits
  others : OnlyMetadata client.outstanding

/-- The thread waits for the next state, and the request whose callback sets it is
outstanding. -/
structure Asked (phase : Phase) (client : Client) : Prop where
  state : client.testState.next = phase.awaits
  own : ∃ request rest, client.outstanding.Perm (request :: rest) ∧
    request.completes = client.testState ∧ OnlyMetadata rest

def Tracks (state : DriverState) : Prop :=
  match state.thread with
  | .subscribing => state.client.testState = .selectObj ∧ state.client.outstanding = []
  | .retrying _ phase => Ready phase state.client ∨ Asked phase state.client
  | .returned => True

/-- The thread waits for a state that no outstanding request sets. -/
structure Stranded (phase : Phase) (client : Client) : Prop where
  state : client.testState ≠ phase.awaits
  passed : client.testState ≠ .readObjMeta
  others : OnlyMetadata client.outstanding

def Lost (state : DriverState) : Prop :=
  ∃ i phase, state.thread = .retrying i phase ∧ Stranded phase state.client

theorem Tracks.in_step {state : DriverState} (tracks : Tracks state) : InStep state := by
  intro i phase retrying
  simp only [Tracks, retrying] at tracks
  rcases tracks with ready | asked
  · exact .inl ready.state
  · obtain ⟨request, rest, outstanding, completes, -⟩ := asked.own
    refine .inr ⟨request, outstanding.mem_iff.mpr List.mem_cons_self, ?_⟩
    intro err
    rw [callback_state, if_pos completes.symm]
    exact asked.state

theorem Lost.not_in_step {state : DriverState} (lost : Lost state) : ¬InStep state := by
  obtain ⟨i, phase, retrying, stranded⟩ := lost
  intro inStep
  rcases inStep i phase retrying with here | ⟨request, outstanding, sets⟩
  · exact stranded.state here
  · have metadata := stranded.others request outstanding
    have kept := sets 0
    rw [callback_state, metadata, Request.completes, if_neg stranded.passed] at kept
    exact stranded.state kept

/-- The function has put a request to the library, which has refused or taken it. -/
structure Asks (request : Request) (err : Int) (before : Client) (result : Int × Client) :
    Prop where
  returns : result.1 = err
  state : result.2.testState = before.testState
  outstanding : result.2.outstanding = before.outstanding ++ if err = 0 then [request] else []

theorem ask_asks (request : Request) (err : Int) (client : Client) :
    Asks request err client (err, client.ask request err) := by
  refine ⟨rfl, ask_state request err client, ?_⟩
  unfold Client.ask
  split_ifs
  · rfl
  · simp

def Lacks (props : ObjectProps) : Phase → Prop
  | .selectId | .readObjMeta => False
  | .writeObj => props.write = false
  | .readObj => props.read = false

/-- What a phase function does in its own state: it puts its request to the library,
or the object lacks the property. -/
theorem function_here {phase : Phase} {client : Client} (here : client.testState = phase.awaits)
    (err : Int) :
    (¬Lacks client.props phase ∧ ∃ request, request.completes = phase.awaits ∧
      Asks request err client (phase.function err client)) ∨
    Lacks client.props phase ∧ phase.function err client = (0, client) := by
  cases phase with
  | selectId =>
      simp only [Phase.awaits] at here
      simp only [Phase.function, testSelectId, here, ne_eq, not_true_eq_false, if_false]
      by_cases first : client.firstSelected = true
      · simp only [first, Bool.not_true, Bool.false_eq_true, if_false]
        exact .inl ⟨id, .selectNext, rfl, ask_asks _ _ _⟩
      · have asked := ask_asks .selectId err client
        refine .inl ⟨id, .selectId, rfl, ?_⟩
        simp only [first, Bool.not_false, if_true]
        constructor
        · rfl
        · split_ifs
          · exact asked.state
          · exact asked.state
        · split_ifs with taken
          · simpa [taken] using asked.outstanding
          · simpa [taken] using asked.outstanding
  | readObjMeta =>
      simp only [Phase.awaits] at here
      simp only [Phase.function, testReadObjMeta, here, ne_eq, not_true_eq_false, if_false]
      exact .inl ⟨id, .readObjectMetadata, rfl, ask_asks _ _ _⟩
  | writeObj =>
      simp only [Phase.awaits] at here
      simp only [Phase.function, testWriteObj, here, ne_eq, not_true_eq_false, if_false]
      by_cases property : client.props.write = true
      · simp only [property, if_true]
        refine .inl ⟨?_, .writeObjectData, rfl, ask_asks _ _ _⟩
        simp [Lacks, property]
      · simp [Lacks, property]
  | readObj =>
      simp only [Phase.awaits] at here
      simp only [Phase.function, testReadObj, here, ne_eq, not_true_eq_false, if_false]
      by_cases property : client.props.read = true
      · simp only [property, if_true]
        refine .inl ⟨?_, .readObjectData, rfl, ask_asks _ _ _⟩
        simp [Lacks, property]
      · simp [Lacks, property]

theorem function_elsewhere {phase : Phase} {client : Client}
    (elsewhere : client.testState ≠ phase.awaits) (err : Int) :
    phase.function err client = (-1, client) := by
  cases phase with
  | selectId => exact if_pos elsewhere
  | readObjMeta => exact if_pos elsewhere
  | writeObj => exact if_pos elsewhere
  | readObj => exact if_pos elsewhere

theorem OnlyMetadata.append {requests again : List Request} (only : OnlyMetadata requests)
    (more : OnlyMetadata again) : OnlyMetadata (requests ++ again) := by
  intro request member
  rcases List.mem_append.mp member with earlier | last
  · exact only request earlier
  · exact more request last

theorem OnlyMetadata.erase {requests : List Request} (only : OnlyMetadata requests)
    (request : Request) : OnlyMetadata (requests.erase request) :=
  fun other member => only other (List.mem_of_mem_erase member)

theorem proceed_awaits {i : Nat} {phase : Phase} :
    (∃ j next, proceed i phase = .retrying j next ∧ next.awaits = phase.awaits.next) ∨
      proceed i phase = .returned ∧ phase = .readObj ∧ rounds ≤ i + 1 := by
  cases phase with
  | selectId => exact .inl ⟨i, .readObjMeta, rfl, rfl⟩
  | readObjMeta => exact .inl ⟨i, .writeObj, rfl, rfl⟩
  | writeObj => exact .inl ⟨i, .readObj, rfl, rfl⟩
  | readObj =>
      unfold proceed
      by_cases more : i + 1 < rounds
      · exact .inl ⟨i + 1, .selectId, if_pos more, rfl⟩
      · exact .inr ⟨if_neg more, rfl, Nat.le_of_not_lt more⟩

theorem asked_proceeds {i : Nat} {phase : Phase} {client : Client}
    (asked : ∃ request rest, client.outstanding.Perm (request :: rest) ∧
      request.completes = client.testState ∧ OnlyMetadata rest)
    (here : client.testState = phase.awaits) : Tracks ⟨proceed i phase, client⟩ := by
  rcases @proceed_awaits i phase with ⟨j, next, follows, awaits⟩ | ⟨ends, -⟩
  · simp only [Tracks, follows]
    refine .inr ⟨?_, asked⟩
    rw [here, awaits]
  · simp only [Tracks, ends]

theorem supported_iff {i : Nat} {props : ObjectProps} {phase : Phase} :
    Supported i props phase ↔ Lacks props phase → phase = .readObj ∧ rounds ≤ i + 1 := by
  cases phase with
  | selectId => simp [Supported, Lacks]
  | readObjMeta => simp [Supported, Lacks]
  | writeObj => simp [Supported, Lacks]
  | readObj => cases read : props.read <;> simp [Supported, Lacks, read]

/-- A turn in which the function does nothing but return 0 leaves the thread behind
its state, unless it is the last one. -/
theorem lacking_turn {i : Nat} {phase : Phase} {client : Client} (ready : Ready phase client)
    (lacks : Lacks client.props phase) :
    (Supported i client.props phase → Tracks ⟨proceed i phase, client⟩) ∧
      (¬Supported i client.props phase → Lost ⟨proceed i phase, client⟩) := by
  obtain ⟨here, others⟩ := ready
  rw [supported_iff]
  constructor
  · intro supported
    obtain ⟨rfl, last⟩ := supported lacks
    simp [Tracks, proceed, Nat.not_lt.mpr last]
  · intro more
    cases phase with
    | selectId => cases lacks
    | readObjMeta => cases lacks
    | writeObj =>
        refine ⟨i, .readObj, rfl, ?_, ?_, others⟩
        all_goals
          simp only [here, Phase.awaits]
          decide
    | readObj =>
        have another : i + 1 < rounds := Nat.lt_of_not_le fun last => more fun _ => ⟨rfl, last⟩
        refine ⟨i + 1, .selectId, if_pos another, ?_, ?_, others⟩
        all_goals
          simp only [here, Phase.awaits]
          decide

theorem ready_turn {i : Nat} {phase : Phase} {client : Client} (ready : Ready phase client)
    (err : Int) :
    (Supported i client.props phase → Tracks (retry i phase err client)) ∧
      (¬Supported i client.props phase → Lost (retry i phase err client)) := by
  unfold retry
  rcases function_here ready.state err with ⟨has, request, completes, asks⟩ | ⟨lacks, passes⟩
  · have supported : Supported i client.props phase :=
      supported_iff.mpr fun lacks => absurd lacks has
    refine ⟨fun _ => ?_, fun missing => absurd supported missing⟩
    have outstanding := asks.outstanding
    have same := asks.state.trans ready.state
    simp only [asks.returns]
    split_ifs at outstanding ⊢ with taken
    · apply asked_proceeds _ same
      refine ⟨request, client.outstanding, ?_, completes.trans same.symm, ready.others⟩
      rw [outstanding]
      exact List.perm_append_singleton _ _
    · refine .inl ⟨same, ?_⟩
      rw [outstanding, List.append_nil]
      exact ready.others
  · simp only [passes, if_true]
    exact lacking_turn ready lacks

theorem idle_turn {i : Nat} {phase : Phase} {client : Client}
    (elsewhere : client.testState ≠ phase.awaits) (err : Int) :
    retry i phase err client = ⟨.retrying i phase, client⟩ := by
  unfold retry
  simp [function_elsewhere elsewhere]

theorem Asked.elsewhere {phase : Phase} {client : Client} (asked : Asked phase client) :
    client.testState ≠ phase.awaits := by
  intro here
  have ahead := asked.state
  rw [here] at ahead
  cases phase <;> cases ahead

theorem allowed_turn_iff {state : DriverState} {i : Nat} {phase : Phase}
    (place : state.thread = .retrying i phase) (err : Int) :
    Allowed state (.turn err) ↔
      (state.client.testState = phase.awaits → Supported i state.client.props phase) := by
  constructor
  · exact fun allowed => allowed i phase place
  · intro supported j other retrying
    rw [place] at retrying
    cases retrying
    exact supported

theorem turn_tracks {state next : DriverState} {err : Int} (taken : turn err state = some next)
    (tracks : Tracks state) :
    (Allowed state (.turn err) → Tracks next) ∧ (¬Allowed state (.turn err) → Lost next) := by
  cases place : state.thread with
  | subscribing =>
      have allowed : Allowed state (.turn err) := by
        intro i phase retrying
        rw [place] at retrying
        cases retrying
      refine ⟨fun _ => ?_, fun forbidden => absurd allowed forbidden⟩
      simp only [Tracks, place] at tracks
      simp only [turn, place, Option.some.injEq] at taken
      rw [← taken]
      split_ifs
      · refine .inl ⟨tracks.1, ?_⟩
        rw [OnlyMetadata, tracks.2]
        exact List.forall_mem_nil _
      · simp only [Tracks, place]
        exact tracks
  | returned =>
      simp only [turn, place] at taken
      cases taken
  | retrying i phase =>
      simp only [turn, place, Option.some.injEq] at taken
      simp only [Tracks, place] at tracks
      rw [allowed_turn_iff place, ← taken]
      rcases tracks with ready | asked
      · have turned := ready_turn (i := i) ready err
        exact ⟨fun allowed => turned.1 (allowed ready.state),
          fun forbidden => turned.2 fun supported => forbidden fun _ => supported⟩
      · rw [idle_turn asked.elsewhere]
        refine ⟨fun _ => .inr asked, fun forbidden => ?_⟩
        exact absurd (fun here => absurd here asked.elsewhere) forbidden

structure Completed (request : Request) (before after : DriverState) : Prop where
  outstanding : request ∈ before.client.outstanding
  thread : after.thread = before.thread
  state : after.client.testState =
    if before.client.testState = request.completes then before.client.testState.next
    else before.client.testState
  others : ∃ again, after.client.outstanding = before.client.outstanding.erase request ++ again ∧
    OnlyMetadata again

theorem complete_completed {state next : DriverState} {request : Request} {props : ObjectProps}
    {err : Int} (taken : complete request props err state = some next) :
    Completed request state next := by
  unfold complete at taken
  split_ifs at taken with outstanding
  cases taken
  exact ⟨outstanding, rfl, callback_state _ _ _, callback_outstanding _ _ _⟩

theorem metadata_completed {request : Request} {before after : DriverState}
    (completed : Completed request before after)
    (others : OnlyMetadata before.client.outstanding) :
    request = .readObjectMetadata ∧ OnlyMetadata after.client.outstanding := by
  obtain ⟨again, left, more⟩ := completed.others
  refine ⟨others request completed.outstanding, ?_⟩
  rw [left]
  exact (others.erase request).append more

theorem ready_completed {i : Nat} {phase : Phase} {request : Request} {before after : DriverState}
    (place : before.thread = .retrying i phase) (completed : Completed request before after)
    (ready : Ready phase before.client) :
    (phase ≠ .readObjMeta → Tracks after) ∧ (phase = .readObjMeta → Lost after) := by
  obtain ⟨metadata, others⟩ := metadata_completed completed ready.others
  have state := completed.state
  have thread := completed.thread.trans place
  rw [metadata, Request.completes, ready.state] at state
  constructor
  · intro other
    have kept : phase.awaits ≠ .readObjMeta := by
      cases phase <;> simp_all [Phase.awaits]
    rw [if_neg kept] at state
    simp only [Tracks, thread]
    exact .inl ⟨state, others⟩
  · rintro rfl
    refine ⟨i, .readObjMeta, thread, ?_, ?_, others⟩
    all_goals
      rw [state]
      decide

theorem asked_completed {i : Nat} {phase : Phase} {request : Request} {before after : DriverState}
    (place : before.thread = .retrying i phase) (completed : Completed request before after)
    (asked : Asked phase before.client) : Tracks after := by
  obtain ⟨own, rest, outstanding, completes, metadata⟩ := asked.own
  obtain ⟨again, left, more⟩ := completed.others
  have state := completed.state
  simp only [Tracks, completed.thread.trans place]
  have either : request = own ∨ request ≠ own ∧ request = .readObjectMetadata := by
    by_cases same : request = own
    · exact .inl same
    · have member := outstanding.mem_iff.mp completed.outstanding
      exact .inr ⟨same, metadata request ((List.mem_cons.mp member).resolve_left same)⟩
  rcases either with rfl | ⟨other, another⟩
  · left
    rw [if_pos completes.symm] at state
    refine ⟨state.trans asked.state, ?_⟩
    rw [left]
    apply OnlyMetadata.append _ more
    intro remaining member
    have inRest := (outstanding.erase _).mem_iff.mp member
    rw [List.erase_cons_head] at inRest
    exact metadata remaining inRest
  · right
    have elsewhere : before.client.testState ≠ request.completes := by
      intro same
      rw [← completes, another] at same
      exact other (another.trans (metadata_iff.mp same).symm)
    rw [if_neg elsewhere] at state
    refine ⟨by rw [state]; exact asked.state, own, rest.erase request ++ again, ?_, ?_, ?_⟩
    · rw [left]
      have erased := outstanding.erase request
      rw [List.erase_cons_tail (by simpa using Ne.symm other)] at erased
      exact erased.append_right again
    · rw [state]
      exact completes
    · exact (metadata.erase request).append more

theorem complete_tracks {state next : DriverState} {request : Request} {props : ObjectProps}
    {err : Int} (taken : complete request props err state = some next) (tracks : Tracks state) :
    (Allowed state (.complete request props err) → Tracks next) ∧
      (¬Allowed state (.complete request props err) → Lost next) := by
  have completed := complete_completed taken
  cases place : state.thread with
  | subscribing =>
      simp only [Tracks, place] at tracks
      have outstanding := completed.outstanding
      rw [tracks.2] at outstanding
      cases outstanding
  | returned =>
      have allowed : Allowed state (.complete request props err) := by
        intro _ _ i retrying
        rw [place] at retrying
        cases retrying
      refine ⟨fun _ => ?_, fun forbidden => absurd allowed forbidden⟩
      simp only [Tracks, completed.thread, place]
  | retrying i phase =>
      simp only [Tracks, place] at tracks
      rcases tracks with ready | asked
      · have cases := ready_completed place completed ready
        have metadata := (metadata_completed completed ready.others).1
        by_cases own : phase = .readObjMeta
        · refine ⟨fun allowed => ?_, fun _ => cases.2 own⟩
          rw [own] at place ready
          exact absurd place (allowed metadata ready.state i)
        · refine ⟨fun _ => cases.1 own, fun forbidden => absurd ?_ forbidden⟩
          intro _ _ j retrying
          rw [place] at retrying
          cases retrying
          exact own rfl
      · refine ⟨fun _ => asked_completed place completed asked, fun forbidden => absurd ?_ forbidden⟩
        intro _ here j retrying
        rw [place] at retrying
        cases retrying
        exact asked.elsewhere here

theorem subscribe_tracks {state : DriverState} (tracks : Tracks state) :
    Tracks { state with client := { state.client with subscribed := true } } := by
  cases place : state.thread with
  | subscribing =>
      simp only [Tracks, place] at tracks ⊢
      exact tracks
  | returned => simp only [Tracks]
  | retrying i phase =>
      simp only [Tracks, place] at tracks ⊢
      rcases tracks with ready | asked
      · exact .inl ⟨ready.state, ready.others⟩
      · exact .inr ⟨asked.state, asked.own⟩

theorem step_tracks {state next : DriverState} {action : Action}
    (taken : step state action = some next) (tracks : Tracks state) :
    (Allowed state action → Tracks next) ∧ (¬Allowed state action → Lost next) := by
  cases action with
  | subscribe =>
      cases taken
      exact ⟨fun _ => subscribe_tracks tracks, fun forbidden => absurd trivial forbidden⟩
  | turn err => exact turn_tracks taken tracks
  | complete request props err => exact complete_tracks taken tracks

theorem lost_stays : Preserves step Lost := by
  rintro state action next taken ⟨i, phase, place, stranded⟩
  cases action with
  | subscribe =>
      cases taken
      exact ⟨i, phase, place, stranded.state, stranded.passed, stranded.others⟩
  | turn err =>
      simp only [step, turn, place, idle_turn stranded.state, Option.some.injEq] at taken
      rw [← taken]
      exact ⟨i, phase, rfl, stranded⟩
  | complete request props err =>
      have completed := complete_completed taken
      obtain ⟨metadata, others⟩ := metadata_completed completed stranded.others
      have state := completed.state
      rw [metadata, Request.completes, if_neg stranded.passed] at state
      refine ⟨i, phase, completed.thread.trans place, ?_, ?_, others⟩
      · rw [state]
        exact stranded.state
      · rw [state]
        exact stranded.passed

/-- In every run, whatever the objects are and in whatever order the requests
complete: thread and state are in step exactly as long as every turn has found the
property it needs and no metadata have come before the thread has asked for them. -/
theorem driver_in_step_iff (actions : List Action) (state : DriverState)
    (run : exec step start actions = some state) :
    InStep state ↔ Along step Allowed start actions := by
  have begins : Tracks start := ⟨rfl, rfl⟩
  have kept (state : DriverState) (action : Action) (next : DriverState)
      (allowed : Allowed state action) (taken : step state action = some next)
      (tracks : Tracks state) : Tracks next := (step_tracks taken tracks).1 allowed
  have loses (state : DriverState) (action : Action) (next : DriverState)
      (forbidden : ¬Allowed state action) (taken : step state action = some next)
      (tracks : Tracks state) : Lost next := (step_tracks taken tracks).2 forbidden
  constructor
  · intro inStep
    by_contra forbidden
    exact (exec_not_along kept loses lost_stays run begins forbidden).not_in_step inStep
  · intro along
    exact (exec_preserves_along kept run along begins).in_step

/-- One round up to the call of `test_write_obj`. -/
def readObject (props : ObjectProps) : List Action :=
  [.subscribe, .turn 0, .turn 0, .complete .selectId props 0, .turn 0,
    .complete .readObjectMetadata props 0, .turn 0]

theorem writable_object_in_step : ∃ state,
    exec step start (readObject ⟨true, true⟩) = some state ∧
      Along step Allowed start (readObject ⟨true, true⟩) := by
  refine ⟨_, rfl, (driver_in_step_iff (readObject ⟨true, true⟩) _ rfl).mp ?_⟩
  intro i phase retrying
  cases retrying
  right
  exact ⟨.writeObjectData, by decide, fun err => by rw [callback_state]; decide⟩

/-- The thread waits in `test_read_obj` for a state that nothing sets. -/
theorem unwritable_object_strands : ∃ state,
    exec step start (readObject ⟨false, true⟩) = some state ∧
      state.thread = .retrying 0 .readObj ∧ state.client.testState = .writeObj ∧
      state.client.outstanding = [] ∧ ¬InStep state := by
  refine ⟨_, rfl, rfl, rfl, rfl, ?_⟩
  intro inStep
  rcases inStep 0 .readObj rfl with here | ⟨request, outstanding, -⟩
  · cases here
  · cases outstanding

end Blueman.TestDriver
