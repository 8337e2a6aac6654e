import Blueman.MutatorBuild
import Blueman.PacketRecord

/-!
# The interceptor as a server of packets

The two receive loops of `btfuzz.c`, one turn at a time: at its place in the
code the interceptor takes a packet and answers it, recording it or not. What a
mutator writes behind a packet is kept apart from the interceptor's variables.
`Serves` collects the turns of one run, so that what a whole run does is proved
by induction on it, whatever the packets are.
-/

namespace Blueman.Interceptor

open LittleEndian ByteMachine BlePacket MutateStrategy Mutator MutatorBuild PacketRecord

set_option autoImplicit false

abbrev maxPacketCountPerIter : Nat := 100

/-- What a turn takes from outside: the results of `rand()`, the memory behind
the packet, and the number of bytes set in the trace map. -/
structure Input where
  draws : Stream' Rand
  beyond : Memory
  coverage : UInt32

/-- A turn answers and goes on at the next place (none: it leaves the loops), or
it loops forever, or the process dies on a fault. -/
inductive Reaction (Place : Type)
  | answers (ack : BlePkt) (pktRec : PktRecord) (next : Option Place)
  | spins
  | dies

structure Server (Place : Type) where
  start : Place
  react : Place → PktRecord → BlePkt → Input → Reaction Place

/-- The places where the fuzzing interceptor waits; in the loop `i` is below the
count of the seed. -/
inductive FuzzPlace (corpus : List BlePkt)
  | loop (i : Fin corpus.length)
  | trailing
  | terminating

def fuzzHead (corpus : List BlePkt) (i : Nat) : FuzzPlace corpus :=
  if below : i < corpus.length then .loop ⟨i, below⟩ else .trailing

def fuzzReact (build : Build) (corpus : List BlePkt) :
    FuzzPlace corpus → PktRecord → BlePkt → Input → Reaction (FuzzPlace corpus)
  | .loop i, pktRec, pkt, input =>
      if pkt.deviceId = 1 then
        if (corpus.get i).deviceId ≠ 0 then
          let copied := (copyBlePkt pkt (corpus.get i)).2
          match runMutator (mutatePkt build (i + 1)) input.beyond copied input.draws with
          | .ok _ after =>
              let mutated := recordOf after.store
              .answers mutated (addPktToSeqBuf pktRec mutated).2 (some (fuzzHead corpus (i + 1)))
          | .error _ _ => .dies
        else .spins
      else .answers pkt pktRec (some (.loop i))
  | .trailing, pktRec, pkt, _ => .answers pkt pktRec (some .terminating)
  | .terminating, pktRec, pkt, _ => .answers { pkt with mutated := 2 } pktRec none

def fuzzServer (build : Build) (corpus : List BlePkt) : Server (FuzzPlace corpus) :=
  ⟨fuzzHead corpus 0, fuzzReact build corpus⟩

/-- The locals of the loop, and the global `max_delta_index`. -/
structure InitVars where
  cnt : Nat
  coverageCount : UInt32
  maxDelta : UInt32
  maxDeltaIndex : UInt32

inductive InitPlace
  | loop (vars : InitVars)
  | terminating (maxDeltaIndex : UInt32)

def updateDelta (vars : InitVars) (coverage : UInt32) (count : Nat) : InitVars :=
  let delta := coverage - vars.coverageCount
  if delta > vars.maxDelta then
    { vars with maxDelta := delta, maxDeltaIndex := UInt32.ofNat count - 1 }
  else vars

/-- The exit of the loop is tested after the answer, with the count of the
record and, for the device's packets, the coverage. -/
def initReact : InitPlace → PktRecord → BlePkt → Input → Reaction InitPlace
  | .loop vars, pktRec, pkt, input =>
      if pkt.deviceId = 1 then
        let added := (addPktToSeqBuf pktRec pkt).2
        let updated := updateDelta vars input.coverage added.count
        if maxPacketCountPerIter ≤ added.count then
          .answers pkt added (some (.terminating updated.maxDeltaIndex))
        else if input.coverage ≤ vars.coverageCount then
          if vars.cnt + 1 > 80 then
            .answers pkt added (some (.terminating updated.maxDeltaIndex))
          else .answers pkt added (some (.loop
            { updated with cnt := vars.cnt + 1, coverageCount := input.coverage }))
        else .answers pkt added (some (.loop { updated with coverageCount := input.coverage }))
      else if maxPacketCountPerIter ≤ pktRec.count then
        .answers pkt pktRec (some (.terminating vars.maxDeltaIndex))
      else .answers pkt pktRec (some (.loop vars))
  | .terminating _, pktRec, pkt, _ => .answers { pkt with mutated := 2 } pktRec none

def initServer : Server InitPlace := ⟨.loop ⟨0, 0, 0, 0⟩, initReact⟩

structure Served where
  request : BlePkt
  input : Input
  ack : BlePkt

/-- The record as a run finds it: made once for 200 packets, and emptied. -/
def emptyRecord : PktRecord := initPktSeqBuf (createPktSeqBuf (maxPacketCountPerIter * 2))

/-- The turns so far, the place reached and the record left. -/
inductive Serves {Place : Type} (server : Server Place) :
    List Served → Option Place → PktRecord → Prop
  | start : Serves server [] (some server.start) emptyRecord
  | answer {history : List Served} {place : Place} {pktRec : PktRecord} (request : BlePkt)
      (input : Input) {ack : BlePkt} {added : PktRecord} {next : Option Place}
      (earlier : Serves server history (some place) pktRec)
      (turn : server.react place pktRec request input = .answers ack added next) :
      Serves server (history ++ [⟨request, input, ack⟩]) next added

def recorded (history : List Served) : List Served :=
  history.filter fun served => served.request.deviceId == 1

theorem recorded_append (history : List Served) (served : Served) :
    recorded (history ++ [served]) =
      if served.request.deviceId = 1 then recorded history ++ [served] else recorded history := by
  unfold recorded
  rw [List.filter_append]
  split_ifs with device <;> simp [device]

/-- The first packets of device 1, up to a limit, are recorded as they were
answered. -/
structure Recorded (limit : Nat) (history : List Served) (pktRec : PktRecord) : Prop where
  packets : pktRec.packets = ((recorded history).take limit).map Served.ack
  maxCount : pktRec.maxCount = maxPacketCountPerIter * 2

theorem recorded_empty (limit : Nat) : Recorded limit [] emptyRecord := by
  refine ⟨?_, rfl⟩
  rw [show recorded [] = [] from rfl, List.take_nil]
  rfl

theorem Recorded.count {limit : Nat} {history : List Served} {pktRec : PktRecord}
    (holds : Recorded limit history pktRec) :
    pktRec.count = min limit (recorded history).length := by
  rw [PktRecord.count, holds.packets, List.length_map, List.length_take]

theorem Recorded.add {limit : Nat} {history : List Served} {pktRec : PktRecord}
    (holds : Recorded limit history pktRec) (served : Served)
    (device : served.request.deviceId = 1) (short : limit ≤ maxPacketCountPerIter)
    (below : (recorded history).length < limit) :
    Recorded limit (history ++ [served]) (addPktToSeqBuf pktRec served.ack).2 := by
  have capacity : maxPacketCountPerIter = 100 := rfl
  have space : pktRec.count + 1 < pktRec.maxCount := by
    rw [holds.count, holds.maxCount]
    omega
  constructor
  · rw [(add_pkt_packets pktRec served.ack space).2, holds.packets, recorded_append,
      if_pos device, List.take_of_length_le (Nat.le_of_lt below), List.take_of_length_le,
      List.map_append]
    · rfl
    · rw [List.length_append]
      exact below
  · rw [add_pkt_max_count, holds.maxCount]

theorem Recorded.skip {limit : Nat} {history : List Served} {pktRec : PktRecord}
    (holds : Recorded limit history pktRec) (served : Served)
    (passed : served.request.deviceId ≠ 1 ∨ limit ≤ (recorded history).length) :
    Recorded limit (history ++ [served]) pktRec := by
  refine ⟨?_, holds.maxCount⟩
  rw [holds.packets, recorded_append]
  split_ifs with device
  · have full := passed.resolve_left fun other => other device
    rw [List.take_append_of_le_length full]
  · rfl

/-- A record with room for two hundred packets takes every one after at most a
hundred. -/
theorem Recorded.never_refuses {limit : Nat} {history : List Served} {pktRec : PktRecord}
    (holds : Recorded limit history pktRec) (short : limit ≤ maxPacketCountPerIter)
    (pkt : BlePkt) : (addPktToSeqBuf pktRec pkt).1 = 0 := by
  have capacity : maxPacketCountPerIter = 100 := rfl
  apply (add_pkt_packets pktRec pkt _).1
  rw [holds.count, holds.maxCount]
  omega

/-- `mutated == 2` marks the last answer, and no other. -/
def Server.MarksEnd {Place : Type} (server : Server Place) : Prop :=
  ∀ place pktRec request input ack added next, request.mutated = 0 →
    server.react place pktRec request input = .answers ack added next →
      (ack.mutated = 2 ↔ next = none)

def Unfinished (history : List Served) : Prop := ∀ served ∈ history, served.ack.mutated ≠ 2

theorem serves_unfinished {Place : Type} {server : Server Place} (marks : server.MarksEnd)
    {history : List Served} {place : Option Place} {pktRec : PktRecord}
    (serves : Serves server history place pktRec)
    (unmutated : ∀ served ∈ history, served.request.mutated = 0) :
    (place ≠ none → Unfinished history) ∧
      (place = none → ∃ front final, history = front ++ [final] ∧ Unfinished front ∧
        final.ack.mutated = 2) := by
  induction serves with
  | start =>
      constructor
      · intro _ served member
        cases member
      · intro none
        cases none
  | @answer history place pktRec request input ack added next earlier turn induction =>
      have before : Unfinished history := by
        apply (induction _).1
        · intro none
          cases none
        · intro served member
          exact unmutated served (List.mem_append_left _ member)
      have fresh : request.mutated = 0 :=
        unmutated ⟨request, input, ack⟩ (List.mem_append_right _ List.mem_cons_self)
      have marked := marks place pktRec request input ack added next fresh turn
      constructor
      · intro goesOn served member
        rcases List.mem_append.mp member with earlier | last
        · exact before served earlier
        · rw [List.mem_singleton.mp last]
          exact fun two => goesOn (marked.mp two)
      · intro none
        exact ⟨history, _, rfl, before, marked.mpr none⟩

theorem ending_is_last {Place : Type} {server : Server Place} (marks : server.MarksEnd)
    {history : List Served} {place : Option Place} {pktRec : PktRecord}
    (serves : Serves server history place pktRec)
    (unmutated : ∀ served ∈ history, served.request.mutated = 0) {index : Nat} {served : Served}
    (found : history[index]? = some served) (ending : served.ack.mutated = 2) :
    place = none ∧ index + 1 = history.length := by
  obtain ⟨running, ended⟩ := serves_unfinished marks serves unmutated
  have gone : place = none := by
    by_contra goesOn
    exact running goesOn served (List.mem_of_getElem? found) ending
  obtain ⟨front, final, rfl, before, -⟩ := ended gone
  refine ⟨gone, ?_⟩
  have inside : index < (front ++ [final]).length := (List.getElem?_eq_some_iff.mp found).1
  rw [List.length_append] at inside ⊢
  by_contra different
  have earlier : index < front.length := by
    simp only [List.length_singleton] at inside different
    omega
  rw [List.getElem?_append_left earlier] at found
  exact before served (List.mem_of_getElem? found) ending

/-- The answer to the packet served from a slot: the slot copied onto the
request, then offered to the mutator under the number of the next slot. -/
def AnsweredFromSlot (build : Build) (slot : BlePkt) (index : Nat) (served : Served) : Prop :=
  ∃ ret after, runMutator (mutatePkt build (index + 1)) served.input.beyond
    (copyBlePkt served.request slot).2 served.input.draws = .ok ret after ∧
      recordOf after.store = served.ack

theorem run_mutator_mutated {build : Build} {idx ret : Nat} {beyond : Memory} {packet : BlePkt}
    {draws : Stream' Rand} {after : Machine Rand}
    (run : runMutator (mutatePkt build idx) beyond packet draws = .ok ret after) :
    (recordOf after.store).mutated = packet.mutated ∨ (recordOf after.store).mutated = 1 := by
  have marked := (mutate_pkt_marked build idx (place packet beyond)).returned run
  have before : fieldOf (place packet beyond) mutatedOffset = packet.mutated :=
    congrArg BlePkt.mutated (record_of_place packet beyond)
  rcases marked with same | one
  · exact .inl (same.trans before)
  · exact .inr one

theorem AnsweredFromSlot.mutated {build : Build} {slot : BlePkt} {index : Nat} {served : Served}
    (answered : AnsweredFromSlot build slot index served)
    (unmutated : served.request.mutated = 0) : served.ack.mutated ≠ 2 := by
  obtain ⟨ret, after, run, same⟩ := answered
  have copied := copy_ble_pkt_mutated served.request slot
  have ran := run_mutator_mutated run
  rw [same] at ran
  rw [unmutated] at copied
  rcases ran with kept | one
  · rw [kept]
    rcases copied with zero | one
    · rw [zero]
      decide
    · rw [one]
      decide
  · rw [one]
    decide

/-- The turns of the loop so far: each packet of device 1 has used up a slot, and
every other one was sent back as it came. -/
structure Looped (build : Build) (corpus : List BlePkt) (history : List Served) : Prop where
  within : (recorded history).length ≤ corpus.length
  slots : ∀ index served, (recorded history)[index]? = some served →
    ∃ slot, corpus[index]? = some slot ∧ AnsweredFromSlot build slot index served
  others : ∀ served ∈ history, served.request.deviceId ≠ 1 → served.ack = served.request

theorem looped_empty (build : Build) (corpus : List BlePkt) : Looped build corpus [] := by
  refine ⟨Nat.zero_le _, ?_, ?_⟩
  · intro index served entry
    cases entry
  · intro served member
    cases member

theorem Looped.skip {build : Build} {corpus : List BlePkt} {history : List Served}
    (looped : Looped build corpus history) (served : Served)
    (device : served.request.deviceId ≠ 1) (same : served.ack = served.request) :
    Looped build corpus (history ++ [served]) := by
  have unchanged : recorded (history ++ [served]) = recorded history := by
    rw [recorded_append, if_neg device]
  refine ⟨unchanged ▸ looped.within, unchanged ▸ looped.slots, ?_⟩
  intro other member
  rcases List.mem_append.mp member with earlier | last
  · exact looped.others other earlier
  · rw [List.mem_singleton.mp last]
    exact fun _ => same

theorem Looped.add {build : Build} {corpus : List BlePkt} {history : List Served}
    {slot : BlePkt} (looped : Looped build corpus history) (served : Served)
    (device : served.request.deviceId = 1)
    (found : corpus[(recorded history).length]? = some slot)
    (answered : AnsweredFromSlot build slot (recorded history).length served) :
    Looped build corpus (history ++ [served]) := by
  have grown : recorded (history ++ [served]) = recorded history ++ [served] := by
    rw [recorded_append, if_pos device]
  refine ⟨?_, ?_, ?_⟩
  · rw [grown, List.length_append]
    exact (List.getElem?_eq_some_iff.mp found).1
  · rw [grown]
    intro index other entry
    rcases Nat.lt_or_ge index (recorded history).length with earlier | later
    · rw [List.getElem?_append_left earlier] at entry
      exact looped.slots index other entry
    · rw [List.getElem?_append_right later, List.getElem?_singleton] at entry
      split_ifs at entry with last
      have position : index = (recorded history).length := by omega
      subst position
      cases entry
      exact ⟨slot, found, answered⟩
  · intro other member
    rcases List.mem_append.mp member with earlier | last
    · exact looped.others other earlier
    · rw [List.mem_singleton.mp last]
      exact fun other => absurd device other

/-- What a turn of the loop can do: a packet of device 1 uses up the slot and is
recorded, another one passes. -/
theorem fuzz_loop_turn {build : Build} {corpus : List BlePkt} {i : Fin corpus.length}
    {pktRec added : PktRecord} {request ack : BlePkt} {input : Input}
    {next : Option (FuzzPlace corpus)}
    (turn : fuzzReact build corpus (.loop i) pktRec request input = .answers ack added next) :
    (request.deviceId = 1 ∧ AnsweredFromSlot build (corpus.get i) i ⟨request, input, ack⟩ ∧
      added = (addPktToSeqBuf pktRec ack).2 ∧ next = some (fuzzHead corpus (i + 1))) ∨
      (request.deviceId ≠ 1 ∧ ack = request ∧ added = pktRec ∧ next = some (.loop i)) := by
  simp only [fuzzReact] at turn
  split_ifs at turn with device live
  · cases run : runMutator (mutatePkt build (i + 1)) input.beyond (copyBlePkt request (corpus.get i)).2
        input.draws with
    | error fault after =>
        rw [run] at turn
        cases turn
    | ok ret after =>
        rw [run] at turn
        cases turn
        exact .inl ⟨device, ⟨ret, after, run, rfl⟩, rfl, rfl⟩
  · cases turn
    exact .inr ⟨device, rfl, rfl, rfl⟩

theorem fuzz_marks_end (build : Build) (corpus : List BlePkt) :
    (fuzzServer build corpus).MarksEnd := by
  intro place pktRec request input ack added next unmutated turn
  cases place with
  | loop i =>
      rcases fuzz_loop_turn turn with ⟨-, answered, -, rfl⟩ | ⟨-, rfl, -, rfl⟩
      · simp [answered.mutated unmutated]
      · simp [unmutated]
  | trailing =>
      cases turn
      simp [unmutated]
  | terminating =>
      cases turn
      simp

def FuzzShape (build : Build) (corpus : List BlePkt) (history : List Served) :
    Option (FuzzPlace corpus) → Prop
  | some (.loop i) => Looped build corpus history ∧ (recorded history).length = i
  | some .trailing => Looped build corpus history ∧ (recorded history).length = corpus.length
  | some .terminating => ∃ front last, history = front ++ [last] ∧ Looped build corpus front ∧
      (recorded front).length = corpus.length ∧ last.ack = last.request
  | none => ∃ front last final, history = front ++ [last, final] ∧ Looped build corpus front ∧
      (recorded front).length = corpus.length ∧ last.ack = last.request ∧
      final.ack = { final.request with mutated := 2 }

theorem fuzz_head_shape {build : Build} {corpus : List BlePkt} {history : List Served}
    (looped : Looped build corpus history) {i : Nat} (position : (recorded history).length = i) :
    FuzzShape build corpus history (some (fuzzHead corpus i)) := by
  unfold fuzzHead
  split_ifs with below
  · exact ⟨looped, position⟩
  · subst position
    exact ⟨looped, Nat.le_antisymm looped.within (Nat.le_of_not_lt below)⟩

theorem fuzz_serves_shape {build : Build} {corpus : List BlePkt} {history : List Served}
    {place : Option (FuzzPlace corpus)} {pktRec : PktRecord}
    (serves : Serves (fuzzServer build corpus) history place pktRec) :
    FuzzShape build corpus history place := by
  induction serves with
  | start => exact fuzz_head_shape (looped_empty build corpus) rfl
  | @answer history place pktRec request input ack added next earlier turn induction =>
      cases place with
      | loop i =>
          obtain ⟨looped, position⟩ := induction
          rcases fuzz_loop_turn turn with ⟨device, answered, -, rfl⟩ | ⟨device, rfl, -, rfl⟩
          · have slot : corpus[(recorded history).length]? = some (corpus.get i) := by
              rw [position]
              exact List.getElem?_eq_getElem i.isLt
            have fromSlot : AnsweredFromSlot build (corpus.get i) (recorded history).length
                ⟨request, input, ack⟩ := by
              rw [position]
              exact answered
            apply fuzz_head_shape (looped.add ⟨request, input, ack⟩ device slot fromSlot)
            rw [recorded_append, if_pos device, List.length_append, position]
            rfl
          · refine ⟨looped.skip _ device rfl, ?_⟩
            rw [recorded_append, if_neg device]
            exact position
      | trailing =>
          obtain ⟨looped, full⟩ := induction
          cases turn
          exact ⟨history, _, rfl, looped, full, rfl⟩
      | terminating =>
          obtain ⟨front, last, rfl, looped, full, same⟩ := induction
          cases turn
          refine ⟨front, last, ⟨request, input, { request with mutated := 2 }⟩, ?_, looped, full,
            same, rfl⟩
          rw [List.append_assoc]
          rfl

/-- A turn answers from its slot, or sends back what came, marked or not. -/
def SlotOrPassed (build : Build) (corpus : List BlePkt) (history : List Served)
    (served : Served) : Prop :=
  (∃ index slot, (recorded history)[index]? = some served ∧ corpus[index]? = some slot ∧
    AnsweredFromSlot build slot index served) ∨
  served.ack.len = served.request.len ∧ served.ack.pkt = served.request.pkt

theorem Looped.turns {build : Build} {corpus : List BlePkt} {history : List Served}
    (looped : Looped build corpus history) (rest : List Served) :
    ∀ served ∈ history, SlotOrPassed build corpus (history ++ rest) served := by
  intro served member
  by_cases device : served.request.deviceId = 1
  · have turn : served ∈ recorded history := List.mem_filter.mpr ⟨member, beq_iff_eq.mpr device⟩
    obtain ⟨index, entry⟩ := List.mem_iff_getElem?.mp turn
    obtain ⟨slot, found, answered⟩ := looped.slots index served entry
    refine .inl ⟨index, slot, ?_, found, answered⟩
    rw [recorded, List.filter_append, List.getElem?_append_left]
    · exact entry
    · exact (List.getElem?_eq_some_iff.mp entry).1
  · right
    rw [looped.others served member device]
    exact ⟨rfl, rfl⟩

theorem fuzz_serves_turns {build : Build} {corpus : List BlePkt} {history : List Served}
    {place : Option (FuzzPlace corpus)} {pktRec : PktRecord}
    (serves : Serves (fuzzServer build corpus) history place pktRec) :
    ∀ served ∈ history, SlotOrPassed build corpus history served := by
  have shape := fuzz_serves_shape serves
  have only {front : List Served} (looped : Looped build corpus front) :
      ∀ served ∈ front, SlotOrPassed build corpus front served := by
    intro served member
    have turns := looped.turns [] served member
    rwa [List.append_nil] at turns
  cases place with
  | none =>
      obtain ⟨front, last, final, rfl, looped, -, passed, ended⟩ := shape
      intro served member
      rcases List.mem_append.mp member with earlier | later
      · exact looped.turns _ served earlier
      · right
        rcases List.mem_pair.mp later with rfl | rfl
        · rw [passed]
          exact ⟨rfl, rfl⟩
        · rw [ended]
          exact ⟨rfl, rfl⟩
  | some place =>
      cases place with
      | loop i => exact only shape.1
      | trailing => exact only shape.1
      | terminating =>
          obtain ⟨front, last, rfl, looped, -, passed⟩ := shape
          intro served member
          rcases List.mem_append.mp member with earlier | later
          · exact looped.turns _ served earlier
          · right
            rw [List.mem_singleton.mp later, passed]
            exact ⟨rfl, rfl⟩

/-- With a seed of at most a hundred packets, exactly the packets answered from
slots are recorded. -/
theorem fuzz_serves_recorded {build : Build} {corpus : List BlePkt} {history : List Served}
    {place : Option (FuzzPlace corpus)} {pktRec : PktRecord}
    (serves : Serves (fuzzServer build corpus) history place pktRec)
    (short : corpus.length ≤ maxPacketCountPerIter) :
    Recorded corpus.length history pktRec := by
  induction serves with
  | start => exact recorded_empty corpus.length
  | @answer history place pktRec request input ack added next earlier turn induction =>
      have shape := fuzz_serves_shape earlier
      cases place with
      | loop i =>
          rcases fuzz_loop_turn turn with ⟨device, -, rfl, -⟩ | ⟨device, -, rfl, -⟩
          · have below : (recorded history).length < corpus.length := by
              rw [shape.2]
              exact i.isLt
            exact induction.add ⟨request, input, ack⟩ device short below
          · exact induction.skip _ (.inl device)
      | trailing =>
          cases turn
          exact induction.skip _ (.inr (Nat.le_of_eq shape.2.symm))
      | terminating =>
          obtain ⟨front, last, rfl, -, full, -⟩ := shape
          cases turn
          apply induction.skip
          right
          rw [recorded_append]
          split_ifs
          · rw [List.length_append, full]
            exact Nat.le_add_right _ _
          · exact Nat.le_of_eq full.symm

def Passed (history : List Served) : Prop := ∀ served ∈ history, served.ack = served.request

theorem Passed.append {history : List Served} (passed : Passed history) (served : Served)
    (same : served.ack = served.request) : Passed (history ++ [served]) := by
  intro other member
  rcases List.mem_append.mp member with earlier | last
  · exact passed other earlier
  · rw [List.mem_singleton.mp last]
    exact same

/-- The turns and the record while the loop goes on, and when it has been left. -/
def InitShape (history : List Served) (pktRec : PktRecord) : Option InitPlace → Prop
  | some (.loop _) => Passed history ∧ Recorded maxPacketCountPerIter history pktRec ∧
      (recorded history).length < maxPacketCountPerIter
  | some (.terminating _) => Passed history ∧ Recorded maxPacketCountPerIter history pktRec ∧
      (recorded history).length ≤ maxPacketCountPerIter
  | none => ∃ front final, history = front ++ [final] ∧ Passed front ∧
      Recorded maxPacketCountPerIter front pktRec ∧
      (recorded front).length ≤ maxPacketCountPerIter ∧
      final.ack = { final.request with mutated := 2 }

/-- What a turn of the loop can do: it sends the packet back, records it if it is
one of device 1, and goes on only while the record has fewer than a hundred. -/
theorem init_loop_turn {vars : InitVars} {pktRec added : PktRecord} {request ack : BlePkt}
    {input : Input} {next : Option InitPlace}
    (turn : initReact (.loop vars) pktRec request input = .answers ack added next) :
    ack = request ∧
      added = (if request.deviceId = 1 then (addPktToSeqBuf pktRec request).2 else pktRec) ∧
      ((∃ maxDeltaIndex, next = some (.terminating maxDeltaIndex)) ∨
        added.count < maxPacketCountPerIter ∧ ∃ updated, next = some (.loop updated)) := by
  simp only [initReact] at turn
  split_ifs at turn with device full stale gone full
  all_goals cases turn
  all_goals simp only [device, if_true, if_false, true_and]
  · exact .inl ⟨_, rfl⟩
  · exact .inl ⟨_, rfl⟩
  · exact .inr ⟨Nat.lt_of_not_le full, _, rfl⟩
  · exact .inr ⟨Nat.lt_of_not_le full, _, rfl⟩
  · exact .inl ⟨_, rfl⟩
  · exact .inr ⟨Nat.lt_of_not_le full, _, rfl⟩

theorem init_marks_end : initServer.MarksEnd := by
  intro place pktRec request input ack added next unmutated turn
  cases place with
  | loop vars =>
      obtain ⟨rfl, -, ⟨_, rfl⟩ | ⟨-, _, rfl⟩⟩ := init_loop_turn turn
      all_goals simp [unmutated]
  | terminating maxDeltaIndex =>
      cases turn
      simp

theorem init_serves_shape {history : List Served} {place : Option InitPlace}
    {pktRec : PktRecord} (serves : Serves initServer history place pktRec) :
    InitShape history pktRec place := by
  induction serves with
  | start =>
      refine ⟨?_, recorded_empty _, by decide⟩
      intro served member
      cases member
  | @answer history place pktRec request input ack added next earlier turn induction =>
      cases place with
      | loop vars =>
          obtain ⟨passed, holds, below⟩ := induction
          obtain ⟨rfl, record, exits⟩ := init_loop_turn turn
          have grown := passed.append ⟨ack, input, ack⟩ rfl
          have kept : Recorded maxPacketCountPerIter (history ++ [⟨ack, input, ack⟩])
              added := by
            rw [record]
            split_ifs with device
            · exact holds.add ⟨ack, input, ack⟩ device (Nat.le_refl _) below
            · exact holds.skip _ (.inl device)
          have bounded : (recorded (history ++ [⟨ack, input, ack⟩])).length ≤
              maxPacketCountPerIter := by
            rw [recorded_append]
            split_ifs
            · rw [List.length_append]
              exact below
            · exact Nat.le_of_lt below
          rcases exits with ⟨_, rfl⟩ | ⟨few, _, rfl⟩
          · exact ⟨grown, kept, bounded⟩
          · refine ⟨grown, kept, ?_⟩
            rwa [kept.count, Nat.min_eq_right bounded] at few
      | terminating maxDeltaIndex =>
          obtain ⟨passed, holds, bounded⟩ := induction
          cases turn
          exact ⟨history, _, rfl, passed, holds, bounded, rfl⟩

theorem init_serves_recorded {history : List Served} {place : Option InitPlace}
    {pktRec : PktRecord} (serves : Serves initServer history place pktRec) :
    ∃ front, Recorded maxPacketCountPerIter front pktRec := by
  have shape := init_serves_shape serves
  cases place with
  | none =>
      obtain ⟨front, final, -, -, holds, -⟩ := shape
      exact ⟨front, holds⟩
  | some place =>
      cases place with
      | loop vars => exact ⟨history, shape.2.1⟩
      | terminating maxDeltaIndex => exact ⟨history, shape.2.1⟩

end Blueman.Interceptor
