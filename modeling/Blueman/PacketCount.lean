import Blueman.SeedHistory

/-!
# The total of the packets

The interceptor sets `packet_count` after every packet it has recorded, and after
every run `start_fuzzer` adds it to `total_packet_count`. The record is emptied
before a run, the counter is not, and the interceptor may be killed between the
record and the counter.
-/

namespace Blueman.PacketCount

open BlePacket MutatorBuild PacketRecord RunOutcome Interceptor FuzzRun Execution RunLockStep
open MutatorFullStack2Frame SeedHistory

set_option autoImplicit false

section

variable {corpus : List BlePkt}

/-- A run, whether its interceptor has the counter to set, and the counter. The
history is how many packets the run had recorded when it was last set. -/
structure CountedRun (corpus : List BlePkt) where
  run : RunState (FuzzPlace corpus)
  counting : Bool
  packetCount : Nat
  counted : Nat

inductive CountAction
  | run (action : Action)
  | count

/-- In the loop a packet of device 1 is recorded, and the counter is to be set. -/
def countsAfter (run next : RunState (FuzzPlace corpus)) : Action → Bool
  | .process _ =>
      match run.interceptor, next.interceptor with
      | .holding (.loop _) pkt, .answering _ _ => pkt.deviceId == 1
      | _, _ => false
  | _ => false

/-- The counter is set before the packet is acknowledged. -/
def countStep (setup : Setup (FuzzPlace corpus)) (state : CountedRun corpus) :
    CountAction → Option (CountedRun corpus)
  | .run action =>
      if state.counting ∧ action matches .acknowledge then none
      else (step setup state.run action).map fun run =>
        { state with run := run, counting := state.counting || countsAfter state.run run action }
  | .count =>
      if state.counting ∧ state.run.interceptor matches .answering _ _ then
        some { state with
          counting := false
          packetCount := state.run.pktRec.count
          counted := state.run.pktRec.count }
      else none

end

/-- How many packets a run has recorded, and the total after it. -/
structure RunEntry where
  recorded : Nat
  total : UInt64

structure Session where
  packetCount : Nat
  totalPacketCount : UInt64
  history : List RunEntry

def Session.start : Session := ⟨0, 0, []⟩

/-- A run of the main loop, with the packets of its seed. -/
structure RunInput where
  build : Build
  corpus : List BlePkt
  attackerStatus : WaitStatus
  messages : List Message
  actions : List CountAction

def RunInput.setup (input : RunInput) : Setup (FuzzPlace input.corpus) :=
  (Mode.fuzz input.build input.corpus).setup input.attackerStatus

def beginRun (session : Session) (input : RunInput) : CountedRun input.corpus :=
  ⟨.start input.setup input.messages, false, session.packetCount, 0⟩

def runCounted (session : Session) (input : RunInput) : Option (CountedRun input.corpus) :=
  exec (countStep input.setup) (beginRun session input) input.actions

def runOnce (session : Session) (input : RunInput) : Option Session :=
  (runCounted session input).bind fun state =>
    match state.run.parent with
    | .finished _ =>
        let total := session.totalPacketCount + UInt64.ofNat state.packetCount
        some ⟨state.packetCount, total, session.history ++
          [⟨state.run.pktRec.count, total⟩]⟩
    | _ => none

section

variable {build : Build} {corpus : List BlePkt} {attackerStatus : WaitStatus}

inductive CountTurn (setup : Setup (FuzzPlace corpus)) (state : CountedRun corpus) :
    CountAction → CountedRun corpus → Prop
  | count {ack : BlePkt} {next : Option (FuzzPlace corpus)} (counting : state.counting = true)
      (answers : state.run.interceptor = .answering ack next) :
      CountTurn setup state .count { state with
        counting := false
        packetCount := state.run.pktRec.count
        counted := state.run.pktRec.count }
  | run {action : Action} {run : RunState (FuzzPlace corpus)}
      (moved : step setup state.run action = some run)
      (settled : action = .acknowledge → state.counting = false) :
      CountTurn setup state (.run action) { state with
        run := run, counting := state.counting || countsAfter state.run run action }

theorem count_step_turn {setup : Setup (FuzzPlace corpus)} {state next : CountedRun corpus}
    {action : CountAction} (taken : countStep setup state action = some next) :
    CountTurn setup state action next := by
  cases action with
  | count =>
      obtain ⟨⟨counting, answers⟩, same⟩ := Option.ite_none_right_eq_some.mp taken
      cases same
      split at answers
      · exact .count counting ‹_›
      · cases answers
  | run action =>
      obtain ⟨settled, taken⟩ := Option.ite_none_left_eq_some.mp taken
      obtain ⟨run, moved, rfl⟩ := Option.map_eq_some_iff.mp taken
      refine .run moved ?_
      rintro rfl
      simpa using settled

/-- A packet of device 1 in the loop leaves the record not empty and grown by at
most one packet; every other turn leaves it as it was. -/
theorem fuzz_react_record {place : FuzzPlace corpus} {pktRec added : PktRecord}
    {pkt ack : BlePkt} {input : Input} {next : Option (FuzzPlace corpus)}
    (capacity : pktRec.maxCount = maxPacketCountPerIter * 2)
    (turn : fuzzReact build corpus place pktRec pkt input = .answers ack added next) :
    ((∃ i, place = .loop i) ∧ pkt.deviceId = 1 ∧ added.maxCount = pktRec.maxCount ∧
      added.count ≠ 0 ∧ pktRec.count ≤ added.count ∧ added.count ≤ pktRec.count + 1) ∨
      added = pktRec ∧ ∀ i, place = .loop i → pkt.deviceId ≠ 1 := by
  cases place with
  | loop i =>
      rcases fuzz_loop_turn turn with ⟨device, -, rfl, -⟩ | ⟨device, -, rfl, -⟩
      · have space : 1 < pktRec.maxCount := by
          rw [capacity]
          decide
        obtain ⟨some, grows⟩ := add_pkt_count_ge pktRec ack space
        exact .inl ⟨⟨i, rfl⟩, device, add_pkt_max_count pktRec ack, some, grows,
          add_pkt_count_le pktRec ack⟩
      · exact .inr ⟨rfl, fun _ _ => device⟩
  | trailing =>
      cases turn
      exact .inr ⟨rfl, fun _ same => by cases same⟩
  | terminating =>
      cases turn
      exact .inr ⟨rfl, fun _ same => by cases same⟩

def Takes {Place : Type} : InterceptorState Place → Prop
  | .awaiting _ | .holding _ _ | .finishing => True
  | _ => False

theorem process_busy {Place : Type} {setup : Setup Place} {run next : RunState Place}
    {input : Input} (taken : step setup run (.process input) = some next) :
    ¬Takes next.interceptor := by
  cases step_turn taken with
  | answer => exact id
  | spin => exact id
  | crash => exact id

theorem step_busy {Place : Type} {setup : Setup Place} {run next : RunState Place}
    {action : Action} (taken : step setup run action = some next)
    (other : action ≠ .acknowledge) (busy : ¬Takes run.interceptor) :
    ¬Takes next.interceptor := by
  cases step_turn taken with
  | receive awaits _ => simp [awaits, Takes] at busy
  | answer => exact id
  | spin => exact id
  | crash => exact id
  | acknowledge => exact absurd rfl other
  | acknowledgeLast => exact absurd rfl other
  | finish => exact id
  | alarm => exact id
  | recreate => exact id
  | _ => exact busy

/-- Where a run stands whose counter was `before` at its start. -/
structure Counting (before : Nat) (state : CountedRun corpus) : Prop where
  capacity : state.run.pktRec.maxCount = maxPacketCountPerIter * 2
  counter : state.packetCount = if state.counted = 0 then before else state.counted
  counted : state.counted ≤ state.run.pktRec.count
  recorded : state.run.pktRec.count ≤ state.counted + 1
  settled : state.counting = false → state.counted = state.run.pktRec.count
  some : state.counting = true → state.run.pktRec.count ≠ 0
  busy : state.counting = true → ¬Takes state.run.interceptor

theorem begin_run_counting (session : Session) (input : RunInput) :
    Counting session.packetCount (beginRun session input) := by
  refine ⟨rfl, rfl, Nat.le_refl 0, Nat.zero_le 1, fun _ => rfl, ?_, ?_⟩
  all_goals
    intro counting
    cases counting

theorem Counting.keep {before : Nat} {state : CountedRun corpus} {action : Action}
    {run : RunState (FuzzPlace corpus)} (holds : Counting before state)
    (same : run.pktRec = state.run.pktRec) (nothing : countsAfter state.run run action = false)
    (busy : ¬Takes state.run.interceptor → ¬Takes run.interceptor) :
    Counting before { state with
      run := run, counting := state.counting || countsAfter state.run run action } := by
  obtain ⟨capacity, counter, counted, recorded, settled, some, stays⟩ := holds
  rw [nothing, Bool.or_false]
  rw [← same] at capacity counted recorded settled some
  exact ⟨capacity, counter, counted, recorded, settled, some,
    fun counting => busy (stays counting)⟩

theorem Counting.settled_of_takes {before : Nat} {state : CountedRun corpus}
    (holds : Counting before state) (takes : Takes state.run.interceptor) :
    state.counted = state.run.pktRec.count :=
  holds.settled (Bool.eq_false_iff.mpr fun counting => holds.busy counting takes)

theorem process_counting {before : Nat} {state : CountedRun corpus} {input : Input}
    {run : RunState (FuzzPlace corpus)} (holds : Counting before state)
    (moved : step ((Mode.fuzz build corpus).setup attackerStatus) state.run (.process input) =
      some run) :
    Counting before { state with
      run := run, counting := state.counting || countsAfter state.run run (.process input) } := by
  have busy := process_busy moved
  cases step_turn moved with
  | @answer place pkt ack _ added following held turn =>
      have settled := holds.settled_of_takes (by simp [held, Takes])
      rcases fuzz_react_record holds.capacity turn with
        ⟨⟨i, rfl⟩, device, capacity, some, grows, most⟩ | ⟨rfl, other⟩
      · refine ⟨capacity.trans holds.capacity, holds.counter, settled ▸ grows, settled ▸ most, ?_,
          fun _ => some, fun _ => busy⟩
        intro none
        simp [countsAfter, held, device] at none
      · refine holds.keep rfl ?_ fun _ => busy
        cases place with
        | loop i => simp [countsAfter, held, other i rfl]
        | _ => simp [countsAfter, held]
  | spin held => exact holds.keep rfl (by simp [countsAfter]) fun _ => busy
  | crash held => exact holds.keep rfl (by simp [countsAfter]) fun _ => busy

theorem step_record {Place : Type} {setup : Setup Place} {run next : RunState Place}
    {action : Action} (taken : step setup run action = some next)
    (other : ∀ input, action ≠ .process input) : next.pktRec = run.pktRec := by
  cases step_turn taken with
  | answer => exact absurd rfl (other _)
  | _ => rfl

theorem count_step_keeps {before : Nat} :
    Preserves (countStep ((Mode.fuzz build corpus).setup attackerStatus)) (Counting before) := by
  intro state action next taken holds
  cases count_step_turn taken with
  | count counting _ =>
      refine ⟨holds.capacity, (if_neg (holds.some counting)).symm, Nat.le_refl _, Nat.le_succ _,
        fun _ => rfl, ?_, ?_⟩
      all_goals
        intro again
        cases again
  | @run action run moved settled =>
      cases action with
      | process input => exact process_counting holds moved
      | acknowledge =>
          have none := settled rfl
          have same : run.pktRec = state.run.pktRec := step_record moved (by simp)
          refine ⟨same ▸ holds.capacity, holds.counter, same ▸ holds.counted,
            same ▸ holds.recorded, fun _ => same ▸ holds.settled none, ?_, ?_⟩
          all_goals
            intro counting
            simp [none, countsAfter] at counting
      | _ => exact holds.keep (step_record moved (by simp)) rfl (step_busy moved (by simp))

/-- What has been recorded is counted before the interceptor is killed. -/
def CountsFirst (setup : Setup (FuzzPlace corpus)) (state : CountedRun corpus) : CountAction → Prop
  | .run action => (action matches .alarm) || cleanUpKills setup.attackerStatus state.run action →
      state.counted = state.run.pktRec.count
  | .count => True

def CountedAll (state : CountedRun corpus) : Prop :=
  state.run.interceptor = .ended → state.counted = state.run.pktRec.count

structure Uncounted (state : CountedRun corpus) : Prop where
  gone : state.run.interceptor = .ended
  missed : state.counted ≠ state.run.pktRec.count

variable {setup : Setup (FuzzPlace corpus)}

theorem counts_first_step {before : Nat} {state next : CountedRun corpus} {action : CountAction}
    (first : CountsFirst setup state action) (taken : countStep setup state action = some next)
    (holds : Counting before state) (all : CountedAll state) : CountedAll next := by
  cases count_step_turn taken with
  | count => exact fun _ => rfl
  | run moved =>
      intro gone
      cases step_turn moved with
      | alarm => exact first rfl
      | recreate cleans failed => exact first (by simp [cleanUpKills, cleans, failed])
      | finish finishes => exact holds.settled_of_takes (by simp [finishes, Takes])
      | crash held => exact holds.settled_of_takes (by simp [held, Takes])
      | receive => cases gone
      | answer => cases gone
      | spin => cases gone
      | acknowledge => cases gone
      | acknowledgeLast => cases gone
      | _ => exact all gone

theorem killed_uncounted {state next : CountedRun corpus} {action : CountAction}
    (late : ¬CountsFirst setup state action) (taken : countStep setup state action = some next) :
    Uncounted next := by
  cases count_step_turn taken with
  | count => exact absurd trivial late
  | @run action run moved =>
      obtain ⟨kills, missed⟩ := Classical.not_imp.mp late
      cases action with
      | alarm =>
          refine ⟨?_, (step_record moved (by simp)).symm ▸ missed⟩
          cases step_turn moved with
          | alarm => rfl
      | cleanUp =>
          refine ⟨?_, (step_record moved (by simp)).symm ▸ missed⟩
          exact clean_up_kills moved (by simpa using kills)
      | _ => simp [cleanUpKills] at kills

theorem uncounted_stays : Preserves (countStep setup) Uncounted := by
  intro state action next taken uncounted
  have gone := uncounted.gone
  cases count_step_turn taken with
  | count _ answers => simp [gone] at answers
  | run moved =>
      refine ⟨ended_stays moved gone, ?_⟩
      cases step_turn moved with
      | answer held _ => simp [gone] at held
      | _ => exact uncounted.missed

theorem count_step_reaped : Preserves (countStep setup) fun state =>
    ∀ fault, state.run.parent = .finished fault → state.run.interceptor = .ended := by
  intro state action next taken reaped
  cases count_step_turn taken with
  | count => exact reaped
  | run moved => exact reaped_interceptor moved reaped

end

theorem run_counting {session : Session} {input : RunInput} {state : CountedRun input.corpus}
    (run : runCounted session input = some state) : Counting session.packetCount state :=
  exec_preserves count_step_keeps run (begin_run_counting session input)

/-- No kill of the run comes between the record and the counter. -/
def Undisturbed (session : Session) (input : RunInput) : Prop :=
  Along (countStep input.setup) (CountsFirst input.setup) (beginRun session input) input.actions

theorem counted_all_iff {session : Session} {input : RunInput} {state : CountedRun input.corpus}
    {fault : RunFault} (run : runCounted session input = some state)
    (gone : state.run.parent = .finished fault) :
    state.counted = state.run.pktRec.count ↔ Undisturbed session input := by
  have start := begin_run_counting session input
  constructor
  · intro all
    by_contra disturbed
    have uncounted : Uncounted state := by
      apply exec_not_along _ _ uncounted_stays run start disturbed
      · intro state action next _ taken
        exact count_step_keeps state action next taken
      · intro state action next late taken _
        exact killed_uncounted late taken
    exact uncounted.missed all
  · intro undisturbed
    have kept : Counting session.packetCount state ∧ CountedAll state := by
      apply exec_preserves_along _ run undisturbed ⟨start, fun _ => rfl⟩
      rintro state action next first taken ⟨holds, all⟩
      exact ⟨count_step_keeps state action next taken holds,
        counts_first_step first taken holds all⟩
    apply kept.2
    apply exec_preserves count_step_reaped run _ fault gone
    intro fault finished
    cases finished

def recordedSum (history : List RunEntry) : Nat := (history.map RunEntry.recorded).sum

def TotalsRight (history : List RunEntry) : Prop :=
  ∀ (k : Nat) (entry : RunEntry), history[k]? = some entry →
    entry.total = UInt64.ofNat (recordedSum (history.take (k + 1)))

/-- No kill comes between the record and the counter, and where a run records
nothing there is no count of an earlier one left. A single packet that has not been
counted goes unnoticed behind a count of one. -/
def Accounted (session : Session) (input : RunInput) : Prop :=
  ∀ state, runCounted session input = some state →
    Undisturbed session input ∧ (state.run.pktRec.count = 0 → session.packetCount = 0) ∨
      ¬Undisturbed session input ∧ state.run.pktRec.count = 1 ∧ session.packetCount = 1

theorem accounted_iff {session : Session} {input : RunInput} {state : CountedRun input.corpus}
    {fault : RunFault} (run : runCounted session input = some state)
    (gone : state.run.parent = .finished fault) :
    Accounted session input ↔ state.packetCount = state.run.pktRec.count := by
  have holds := run_counting run
  have counter := holds.counter
  have counted := holds.counted
  have recorded := holds.recorded
  have all := counted_all_iff run gone
  constructor
  · intro accounted
    have account := accounted state run
    rw [← all] at account
    split_ifs at counter <;> omega
  · intro right other again
    rw [run] at again
    cases again
    rw [← all]
    split_ifs at counter <;> omega

theorem Counting.recorded_le {corpus : List BlePkt} {before : Nat} {state : CountedRun corpus}
    (holds : Counting before state) : state.run.pktRec.count ≤ maxPacketCountPerIter * 2 :=
  holds.capacity ▸ state.run.pktRec.fits

theorem Counting.packet_count_le {corpus : List BlePkt} {before : Nat} {state : CountedRun corpus}
    (holds : Counting before state) (small : before ≤ maxPacketCountPerIter * 2) :
    state.packetCount ≤ maxPacketCountPerIter * 2 := by
  rw [holds.counter]
  split_ifs
  · exact small
  · exact holds.counted.trans holds.recorded_le

theorem recorded_sum_append (history : List RunEntry) (entry : RunEntry) :
    recordedSum (history ++ [entry]) = recordedSum history + entry.recorded := by
  simp [recordedSum]

theorem totals_right_append (history : List RunEntry) (entry : RunEntry) :
    TotalsRight (history ++ [entry]) ↔ TotalsRight history ∧
      entry.total = UInt64.ofNat (recordedSum (history ++ [entry])) := by
  constructor
  · intro right
    constructor
    · intro k earlier found
      have inside := (List.getElem?_eq_some_iff.mp found).1
      have total := right k earlier (by rwa [List.getElem?_append_left inside])
      rwa [List.take_append_of_le_length inside] at total
    · have total := right history.length entry List.getElem?_concat_length
      rwa [List.take_of_length_le (by simp)] at total
  · rintro ⟨right, last⟩ k other found
    rcases Nat.lt_or_ge k history.length with inside | behind
    · rw [List.getElem?_append_left inside] at found
      rw [List.take_append_of_le_length inside]
      exact right k other found
    · rw [List.getElem?_append_right behind] at found
      obtain ⟨-, rfl⟩ := List.getElem?_eq_some_iff.mp found
      rw [List.take_of_length_le (by simp; omega)]
      simpa using last

theorem of_nat_small_iff {left right : Nat} (small : left ≤ maxPacketCountPerIter * 2)
    (other : right ≤ maxPacketCountPerIter * 2) :
    UInt64.ofNat left = UInt64.ofNat right ↔ left = right := by
  have limit : maxPacketCountPerIter * 2 < UInt64.size := by decide
  constructor
  · intro same
    have value := congrArg UInt64.toNat same
    rwa [UInt64.toNat_ofNat_of_lt' (small.trans_lt limit),
      UInt64.toNat_ofNat_of_lt' (other.trans_lt limit)] at value
  · exact congrArg UInt64.ofNat

structure Tallied (session : Session) : Prop where
  small : session.packetCount ≤ maxPacketCountPerIter * 2
  total : session.totalPacketCount = UInt64.ofNat (recordedSum session.history)
  right : TotalsRight session.history

theorem start_tallied : Tallied .start := by
  refine ⟨Nat.zero_le _, rfl, ?_⟩
  intro k entry found
  cases found

theorem run_once_leaves {session next : Session} {input : RunInput}
    (taken : runOnce session input = some next) :
    ∃ state fault, runCounted session input = some state ∧
      state.run.parent = .finished fault ∧ next.packetCount = state.packetCount ∧
      next.totalPacketCount = session.totalPacketCount + UInt64.ofNat state.packetCount ∧
      next.history = session.history ++ [⟨state.run.pktRec.count, next.totalPacketCount⟩] := by
  obtain ⟨state, run, finished⟩ := Option.bind_eq_some_iff.mp taken
  split at finished
  · rename_i fault gone
    cases finished
    exact ⟨state, fault, run, gone, rfl, rfl, rfl⟩
  · cases finished

theorem totals_right_next {session next : Session} {input : RunInput}
    (taken : runOnce session input = some next) (tallied : Tallied session) :
    TotalsRight next.history ↔ Accounted session input := by
  obtain ⟨state, fault, run, gone, -, total, history⟩ := run_once_leaves taken
  have holds := run_counting run
  rw [history, totals_right_append, and_iff_right tallied.right, accounted_iff run gone,
    recorded_sum_append, UInt64.ofNat_add, total, tallied.total, UInt64.add_right_inj]
  exact of_nat_small_iff (holds.packet_count_le tallied.small) holds.recorded_le

theorem run_once_tallied {session next : Session} {input : RunInput}
    (accounted : Accounted session input) (taken : runOnce session input = some next)
    (tallied : Tallied session) : Tallied next := by
  have right := (totals_right_next taken tallied).mpr accounted
  obtain ⟨state, fault, run, -, count, -, history⟩ := run_once_leaves taken
  refine ⟨count ▸ (run_counting run).packet_count_le tallied.small, ?_, right⟩
  rw [history, totals_right_append] at right
  rw [history]
  exact right.2

theorem totals_wrong_stay : Preserves runOnce fun session => ¬TotalsRight session.history := by
  intro session input next taken wrong right
  obtain ⟨state, fault, -, -, -, -, history⟩ := run_once_leaves taken
  rw [history, totals_right_append] at right
  exact wrong right.1

/-- After every run the total is the number of packets recorded so far, exactly when
every run is accounted for. -/
theorem total_packets_iff {inputs : List RunInput} {session : Session}
    (reached : exec runOnce .start inputs = some session) :
    TotalsRight session.history ↔ Along runOnce Accounted .start inputs := by
  constructor
  · intro right
    by_contra unaccounted
    apply exec_not_along _ _ totals_wrong_stay reached start_tallied unaccounted right
    · intro session input next accounted taken
      exact run_once_tallied accounted taken
    · intro session input next unaccounted taken tallied right
      exact unaccounted ((totals_right_next taken tallied).mp right)
  · intro accounted
    have tallied : Tallied session := by
      apply exec_preserves_along _ reached accounted start_tallied
      intro session input next accounted taken
      exact run_once_tallied accounted taken
    exact tallied.right

def servedRun : RunInput :=
  ⟨.fieldAware mixedConfig, [headedPacket 37], .signaled sigkill, [],
    [.run (.hook (headedReception 37)), .run .receive, .run (.process quietInput), .count,
      .run .alarm, .run .waitForTarget, .run .cleanUp, .run .waitForInterceptor]⟩

def silentRun : RunInput :=
  ⟨.fieldAware mixedConfig, [headedPacket 37], .signaled sigkill, [],
    [.run (.die (.exited 0)), .run .waitForTarget, .run .cleanUp, .run .alarm,
      .run .waitForInterceptor]⟩

instance decidableCountsFirst {corpus : List BlePkt} (setup : Setup (FuzzPlace corpus))
    (state : CountedRun corpus) : (action : CountAction) → Decidable (CountsFirst setup state action)
  | .run _ => inferInstanceAs (Decidable (_ → _))
  | .count => .isTrue trivial

theorem served_run_undisturbed : Undisturbed .start servedRun := by
  unfold Undisturbed
  decide +kernel

theorem served_run_total : ∃ session, exec runOnce .start [servedRun] = some session ∧
    session.history.map RunEntry.recorded = [1] ∧ TotalsRight session.history := by
  have recorded : (exec runOnce .start [servedRun]).any (fun session =>
      session.history.map RunEntry.recorded == [1]) = true := by
    decide +kernel
  obtain ⟨session, reached, recorded⟩ := (Option.any_eq_true _ _).mp recorded
  refine ⟨session, reached, beq_iff_eq.mp recorded, (total_packets_iff reached).mpr ?_⟩
  constructor
  · intro state _
    exact .inl ⟨served_run_undisturbed, fun _ => rfl⟩
  · intro next _
    trivial

/-- A run that records nothing is counted like the one before it. -/
theorem silent_run_counted_again : ¬∀ (inputs : List RunInput) (session : Session),
    exec runOnce .start inputs = some session → TotalsRight session.history := by
  intro always
  have wrong : (exec runOnce .start [servedRun, silentRun]).any (fun session =>
      session.history[1]?.any fun entry =>
        entry.total != UInt64.ofNat (recordedSum (session.history.take 2))) = true := by
    decide +kernel
  obtain ⟨session, reached, wrong⟩ := (Option.any_eq_true _ _).mp wrong
  obtain ⟨entry, found, different⟩ := (Option.any_eq_true _ _).mp wrong
  exact bne_iff_ne.mp different (always _ _ reached 1 entry found)

end Blueman.PacketCount
