import Blueman.Interceptor
import Blueman.Library.Execution

/-!
# The split at the delta point

A selective strategy has two probabilities, and compares the index it is called
with to the index of the delta point. That one counts the recorded packets from
0. The fuzzing interceptor advances `i` before it passes it on, so that it counts
them from 1, and the packet before the delta point is on the wrong side.
-/

namespace Blueman.DeltaSplit

open LittleEndian ByteMachine BlePacket MutateStrategy Mutator MutatorFullStack2
open MutatorFullStack2Frame MutatorBuild PacketSelection PacketRecord Interceptor Execution

set_option autoImplicit false

/-- A packet of device 1 that takes a slot of the seed, and the index with which
`should_mutate_packet` is called for it, if it is. -/
structure Offer where
  pkt : BlePkt
  asked : Option Nat

/-- The slot is copied to the packet, `i` is advanced and passed on; for a packet
without a payload nothing is asked. -/
def askedFor (slot pkt : BlePkt) (i : Nat) : Option Nat :=
  if slot.deviceId ≠ 0 ∧ (copyBlePkt pkt slot).2.len ≠ 2 + 3 then some (i + 1) else none

def offered {corpus : List BlePkt} : FuzzPlace corpus → BlePkt → List Offer
  | .loop i, pkt => if pkt.deviceId = 1 then [⟨pkt, askedFor (corpus.get i) pkt i⟩] else []
  | _, _ => []

structure Selecting (corpus : List BlePkt) where
  place : Option (FuzzPlace corpus)
  pktRec : PktRecord
  offers : List Offer

def Selecting.start (config : PktselConfig) (corpus : List BlePkt) : Selecting corpus :=
  ⟨some (fuzzServer (.fieldAware config) corpus).start, emptyRecord, []⟩

def selectStep (config : PktselConfig) (corpus : List BlePkt) (state : Selecting corpus)
    (turn : BlePkt × Input) : Option (Selecting corpus) :=
  state.place.map fun place =>
    let offers := state.offers ++ offered place turn.1
    match fuzzReact (.fieldAware config) corpus place state.pktRec turn.1 turn.2 with
    | .answers _ added next => ⟨next, added, offers⟩
    | .spins | .dies => ⟨none, state.pktRec, offers⟩

/-- The mutator behind the test for a payload. -/
def mutateAsked (config : PktselConfig) : Option Nat → Program Rand Nat
  | some idx => do
      let selected ← shouldMutatePacket config idx
      if selected then mutateStrategy else return 0
  | none => return 0

def lenRead (packet : BlePkt) (beyond : Memory) : Store :=
  (place packet beyond).touch (List.range' (packetAddress + lenOffset) 4)

theorem mutate_pkt_asks (config : PktselConfig) (idx : Nat) (packet : BlePkt) (beyond : Memory)
    (draws : Stream' Rand) :
    runMutator (MutatorBuild.mutatePkt (.fieldAware config) idx) beyond packet draws =
      mutateAsked config (if packet.len ≠ 2 + 3 then some idx else none)
        ⟨lenRead packet beyond, draws⟩ := by
  have loads : loadField lenOffset ⟨place packet beyond, draws⟩ =
      .ok packet.len ⟨lenRead packet beyond, draws⟩ := by
    rw [← (place_field packet beyond).1]
    rfl
  simp only [runMutator, MutatorBuild.mutatePkt, MutatorFullStack2.mutatePkt, mutatePktWith]
  rw [run_bind_ok loads]
  by_cases five : packet.len = 2 + 3
  · simp only [five, if_true, ne_eq, not_true_eq_false, if_false]
    rfl
  · simp only [five, if_false, ne_eq, not_false_eq_true, if_true]
    rfl

/-- A turn of the interceptor on a packet of device 1 offers it once, and asks what
has been noted. -/
theorem fuzz_turn_asks {config : PktselConfig} {corpus : List BlePkt} {i : Fin corpus.length}
    {pktRec added : PktRecord} {request ack : BlePkt} {input : Input}
    {next : Option (FuzzPlace corpus)} (device : request.deviceId = 1)
    (turn : fuzzReact (.fieldAware config) corpus (.loop i) pktRec request input =
      .answers ack added next) :
    ∃ offer ret after, offered (.loop i) request = [offer] ∧
      mutateAsked config offer.asked
        ⟨lenRead (copyBlePkt request (corpus.get i)).2 input.beyond, input.draws⟩ =
          .ok ret after ∧ recordOf after.store = ack := by
  have live : (corpus.get i).deviceId ≠ 0 := by
    intro dead
    simp only [fuzzReact, device, dead, if_true, ne_eq, not_true_eq_false, if_false] at turn
    cases turn
  rcases fuzz_loop_turn turn with ⟨-, answered, -⟩ | ⟨other, -⟩
  · obtain ⟨ret, after, run, same⟩ := answered
    rw [mutate_pkt_asks] at run
    refine ⟨_, ret, after, if_pos device, ?_, same⟩
    simp only [askedFor, live, ne_eq, not_false_eq_true, true_and]
    exact run
  · exact absurd device other

/-- The packets offered have used up the slots in front of `i`, and what is asked
about each is the number of its slot plus one. -/
structure Aligned {corpus : List BlePkt} (state : Selecting corpus) : Prop where
  position : ∀ i, state.place = some (.loop i) → state.offers.length = i
  asks : ∀ k offer, state.offers[k]? = some offer →
    ∃ slot, corpus[k]? = some slot ∧ offer.asked = askedFor slot offer.pkt k

theorem asked_for_some {slot pkt : BlePkt} {i idx : Nat} (asked : askedFor slot pkt i = some idx) :
    (slot.deviceId ≠ 0 ∧ (copyBlePkt pkt slot).2.len ≠ 2 + 3) ∧ i + 1 = idx := by
  obtain ⟨passed, same⟩ := Option.ite_none_right_eq_some.mp asked
  exact ⟨passed, Option.some.inj same⟩

theorem fuzz_head_loop {corpus : List BlePkt} {n : Nat} {i : Fin corpus.length}
    (head : fuzzHead corpus n = .loop i) : n = i := by
  unfold fuzzHead at head
  split_ifs at head
  cases head
  rfl

theorem start_aligned (config : PktselConfig) (corpus : List BlePkt) :
    Aligned (.start config corpus) := by
  constructor
  · intro i start
    exact fuzz_head_loop (Option.some.inj start)
  · intro k offer found
    cases found

section

variable {config : PktselConfig} {corpus : List BlePkt}

theorem select_step_offers {state next : Selecting corpus} {turn : BlePkt × Input}
    (taken : selectStep config corpus state turn = some next) :
    ∃ place, state.place = some place ∧ next.offers = state.offers ++ offered place turn.1 ∧
      ((∃ ack, fuzzReact (.fieldAware config) corpus place state.pktRec turn.1 turn.2 =
        .answers ack next.pktRec next.place) ∨ next.place = none) := by
  obtain ⟨place, here, same⟩ := Option.map_eq_some_iff.mp taken
  refine ⟨place, here, ?_⟩
  split at same
  all_goals subst same
  · rename_i ack added after turned
    exact ⟨rfl, .inl ⟨ack, turned⟩⟩
  · exact ⟨rfl, .inr rfl⟩
  · exact ⟨rfl, .inr rfl⟩

theorem Aligned.asks_append {state : Selecting corpus} (aligned : Aligned state)
    {place : FuzzPlace corpus} (here : state.place = some place) (pkt : BlePkt) (k : Nat)
    (offer : Offer) (found : (state.offers ++ offered place pkt)[k]? = some offer) :
    ∃ slot, corpus[k]? = some slot ∧ offer.asked = askedFor slot offer.pkt k := by
  rcases Nat.lt_or_ge k state.offers.length with inside | behind
  · rw [List.getElem?_append_left inside] at found
    exact aligned.asks k offer found
  · rw [List.getElem?_append_right behind] at found
    cases place with
    | loop i =>
        have position := aligned.position i here
        by_cases device : pkt.deviceId = 1
        · simp only [offered, device, if_true] at found
          rw [List.getElem?_singleton] at found
          obtain ⟨last, same⟩ := Option.ite_none_right_eq_some.mp found
          have slot : k = i := by omega
          subst slot
          cases same
          exact ⟨corpus.get i, List.getElem?_eq_getElem i.isLt, rfl⟩
        · simp [offered, device] at found
    | trailing => cases found
    | terminating => cases found

theorem select_step_aligned : Preserves (selectStep config corpus) Aligned := by
  intro state turn next taken aligned
  obtain ⟨place, here, offers, turned⟩ := select_step_offers taken
  constructor
  · intro j there
    rcases turned with ⟨ack, turned⟩ | gone
    · rw [there] at turned
      cases place with
      | loop i =>
          have position := aligned.position i here
          rw [offers, List.length_append, position]
          rcases fuzz_loop_turn turned with ⟨device, -, -, head⟩ | ⟨device, -, -, same⟩
          · rw [← fuzz_head_loop (Option.some.inj head).symm]
            simp [offered, device]
          · cases same
            simp [offered, device]
      | trailing => simp [fuzzReact] at turned
      | terminating => simp [fuzzReact] at turned
    · rw [there] at gone
      cases gone
  · rw [offers]
    exact aligned.asks_append here turn.1

end

/-- Called with this index `should_mutate_packet` compares with this probability. -/
def Gives (config : PktselConfig) (idx : Nat) (prob : UnitFloat) : Prop :=
  ∀ machine, selectionProb config idx machine = .ok prob machine

def strategyOf (base : PktselConfig) (number : Nat) (maxDeltaIndex : UInt32) : PktselConfig :=
  selectionStrategySetup base number maxDeltaIndex.toUInt64

/-- The packet at position `k` gets the first probability exactly from the delta
point on, and the second one before it. -/
def SplitsAt (config : PktselConfig) (maxDeltaIndex : UInt32) (k idx : Nat) : Prop :=
  (Gives config idx config.firstProb ↔ maxDeltaIndex.toNat ≤ k) ∧
    (k < maxDeltaIndex.toNat → Gives config idx config.secondProb)

def Selective (number : Nat) : Prop :=
  PktselMode.ofNumber number = .selective25_75 ∨ PktselMode.ofNumber number = .selective75_25

section

variable {base : PktselConfig} {number : Nat} {maxDeltaIndex : UInt32}

theorem strategy_gives_iff (selective : Selective number) (idx : Nat) (prob : UnitFloat) :
    Gives (strategyOf base number maxDeltaIndex) idx prob ↔
      (if maxDeltaIndex.toNat ≤ idx then (strategyOf base number maxDeltaIndex).firstProb
        else (strategyOf base number maxDeltaIndex).secondProb) = prob := by
  have entry : maxDeltaIndex.toUInt64.toUInt32 = maxDeltaIndex := by simp
  constructor
  · intro gives
    have given := gives ⟨⟨fun _ => 0, []⟩, fun _ => drawnOf 0⟩
    rcases selective with mode | mode
    all_goals
      simp only [strategyOf, selectionStrategySetup, mode, selectionProb, entry] at given ⊢
      cases given
      rfl
  · intro chosen machine
    subst chosen
    rcases selective with mode | mode
    all_goals
      simp only [strategyOf, selectionStrategySetup, mode, selectionProb, entry]
      rfl

theorem strategy_probs_differ (selective : Selective number) :
    (strategyOf base number maxDeltaIndex).firstProb ≠
      (strategyOf base number maxDeltaIndex).secondProb := by
  have quarters : percentFloat 25 ≠ percentFloat 75 := by decide
  rcases selective with mode | mode
  · simp only [strategyOf, selectionStrategySetup, mode]
    exact quarters
  · simp only [strategyOf, selectionStrategySetup, mode]
    exact quarters.symm

/-- Called with the index after its own, only the packet before the delta point is
on the wrong side. -/
theorem splits_at_succ_iff (selective : Selective number) (k : Nat) :
    SplitsAt (strategyOf base number maxDeltaIndex) maxDeltaIndex k (k + 1) ↔
      k + 1 ≠ maxDeltaIndex.toNat := by
  have differ := @strategy_probs_differ base number maxDeltaIndex selective
  simp only [SplitsAt, strategy_gives_iff selective]
  by_cases reached : maxDeltaIndex.toNat ≤ k + 1
  · simp only [reached, if_true, true_iff, differ]
    omega
  · simp only [reached, if_false, differ.symm, false_iff, implies_true, and_true]
    omega

/-- If the run comes to the packet before the delta point, nothing is asked about
it. -/
def UnaskedBefore (corpus : List BlePkt) (maxDeltaIndex : UInt32) (offers : List Offer) : Prop :=
  ∀ k offer slot, offers[k]? = some offer → corpus[k]? = some slot →
    k + 1 = maxDeltaIndex.toNat →
      slot.deviceId = 0 ∨ (copyBlePkt offer.pkt slot).2.len = 2 + 3

/-- In every fuzzing run the packets are split at the delta point exactly if nothing
is asked about the one before it. -/
theorem delta_split_iff {corpus : List BlePkt} {turns : List (BlePkt × Input)}
    {state : Selecting corpus} (selective : Selective number)
    (run : exec (selectStep (strategyOf base number maxDeltaIndex) corpus)
      (.start (strategyOf base number maxDeltaIndex) corpus) turns = some state) :
    (∀ k offer idx, state.offers[k]? = some offer → offer.asked = some idx →
      SplitsAt (strategyOf base number maxDeltaIndex) maxDeltaIndex k idx) ↔
        UnaskedBefore corpus maxDeltaIndex state.offers := by
  have aligned := exec_preserves select_step_aligned run (start_aligned _ corpus)
  constructor
  · intro splits k offer slot found here before
    obtain ⟨other, there, asked⟩ := aligned.asks k offer found
    rw [here] at there
    cases there
    by_contra passed
    rw [askedFor, if_pos (not_or.mp passed)] at asked
    exact (splits_at_succ_iff selective k).mp (splits k offer (k + 1) found asked) before
  · intro unasked k offer idx found asked
    obtain ⟨slot, here, same⟩ := aligned.asks k offer found
    rw [asked] at same
    obtain ⟨passed, rfl⟩ := asked_for_some same.symm
    apply (splits_at_succ_iff selective k).mpr
    intro before
    exact not_or.mpr passed (unasked k offer slot found here before)

end

def plainPacket : BlePkt := ⟨1, 1, 0, 0, 10, 37, Vector.replicate blePktMaxLen 0⟩

def freshConfig : PktselConfig := ⟨.fixedProb50, 0, 0, 0, 0⟩

def plainTurn : BlePkt × Input := (plainPacket, ⟨fun _ => drawnOf 0, fun _ => 0, 0⟩)

theorem plain_run_offers (config : PktselConfig) : ∃ state : Selecting [plainPacket],
    exec (selectStep config [plainPacket]) (.start config [plainPacket]) [plainTurn] =
      some state ∧ state.offers = [⟨plainPacket, some 1⟩] := by
  refine ⟨_, rfl, ?_⟩
  dsimp only
  split <;> rfl

/-- With the delta point at the third packet the first one gets the second
probability. -/
theorem first_packet_before : SplitsAt (strategyOf freshConfig 5 2) 2 0 1 := by
  obtain ⟨state, run, offers⟩ := plain_run_offers (strategyOf freshConfig 5 2)
  apply (delta_split_iff (.inl rfl) run).mpr _ 0 ⟨plainPacket, some 1⟩ 1 _ rfl
  · rw [offers]
    intro k offer slot found here before
    have one : k = 1 := Nat.succ.inj before
    subst one
    cases found
  · rw [offers]
    rfl

/-- With the delta point at the second packet the first one gets the probability
of those behind it. -/
theorem first_packet_behind : ¬∀ (base : PktselConfig) (number : Nat) (maxDeltaIndex : UInt32)
    (corpus : List BlePkt) (turns : List (BlePkt × Input)) (state : Selecting corpus),
    Selective number → exec (selectStep (strategyOf base number maxDeltaIndex) corpus)
      (.start (strategyOf base number maxDeltaIndex) corpus) turns = some state →
    ∀ k offer idx, state.offers[k]? = some offer → offer.asked = some idx →
      SplitsAt (strategyOf base number maxDeltaIndex) maxDeltaIndex k idx := by
  intro always
  obtain ⟨state, run, offers⟩ := plain_run_offers (strategyOf freshConfig 5 1)
  have splits := always freshConfig 5 1 [plainPacket] [plainTurn] state (.inl rfl) run 0
    ⟨plainPacket, some 1⟩ 1 (by rw [offers]; rfl) rfl
  exact (splits_at_succ_iff (.inl rfl) 0).mp splits rfl

end Blueman.DeltaSplit
