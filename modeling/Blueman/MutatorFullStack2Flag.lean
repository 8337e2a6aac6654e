import Blueman.MutatorBuild

/-!
# When the field-aware mutator marks a packet

`mutate_strategy` sets `mutated` when a layer mutator reports a mutation or the
length is not the one it has saved. But it saves the length after a new one has
been drawn, and it rewrites the length byte of the header in any case. So the
draws for which no layer mutator reports anything can change a packet unmarked.
-/

namespace Blueman.MutatorFullStack2Flag

open LittleEndian ByteMachine BlePacket MutateStrategy Mutator PacketSelection MutatorFullStack2
open MutatorFullStack2Frame MutatorBuild

set_option autoImplicit false

def redraws (draws : Stream' Rand) : Bool := decide (draws.head.val % 100 < 50)

def redrawnLen (packet : BlePkt) (draws : Stream' Rand) : UInt32 :=
  if redraws draws then
    UInt32.ofNat (draws.tail.head.val % ((clamp packet.maxPayloadLen).toNat + 1) + 2 + 3)
  else packet.len

def afterRedraw (draws : Stream' Rand) : Stream' Rand := draws.drop (if redraws draws then 2 else 1)

def chosenMutator (packet : BlePkt) (draws : Stream' Rand) : Option LayerMutator :=
  if packet.address = advertisingAddress then some .llAdvertising
  else selectLayerMutator (layerAt packet.image) (draws.head.val % 100)

/-- The layer mutator finds something to mutate and returns 1; the ATT and the SM
mutator do so in any case. -/
def reports : Option LayerMutator → UInt32 → Bool
  | none, _ => false
  | some .llData, len | some .llAdvertising, len => decide (0 < llPayloadLen len)
  | some .l2cap, len => decide (0 < llPayloadLen len - l2capHeaderLen)
  | some .att, _ | some .sm, _ => true

theorem redraw_len_returns (store : Store) (draws : Stream' Rand) :
    Returns redrawLen store draws fun _ after rest =>
      (fieldOf after lenOffset = redrawnLen (recordOf store) draws ∧ rest = afterRedraw draws) ∧
        Within Set.univ lenField store after := by
  have drawn : Returns redrawLen store draws fun _ after rest =>
      fieldOf after lenOffset = redrawnLen (recordOf store) draws ∧ rest = afterRedraw draws := by
    apply returns_bind
    apply returns_rand
    apply returns_whenever
    · intro low
      have yes : redraws draws = true := decide_eq_true low
      apply returns_bind
      apply returns_bind
      apply returns_load_word
      apply returns_pure
      apply returns_bind
      apply returns_rand
      apply returns_bind
      apply returns_remainder (Nat.succ_pos _)
      apply returns_save_word
      rw [redrawnLen, afterRedraw, if_pos yes, if_pos yes]
      exact ⟨field_of_put_field _ lenOffset _, rfl⟩
    · intro high
      have no : ¬redraws draws = true := fun yes => high (of_decide_eq_true yes)
      rw [redrawnLen, afterRedraw, if_neg no, if_neg no]
      exact ⟨rfl, rfl⟩
  apply (drawn.ensured (redraw_len_ensures store)).mono
  rintro _ after rest ⟨facts, within, _⟩
  exact ⟨facts, within⟩

theorem upper_layer_type_returns (store : Store) (draws : Stream' Rand) :
    Returns getUpperLayerTypeForZephyr store draws fun layer after rest =>
      rest = draws ∧ layer = layerAt store.memory ∧ after.memory = store.memory := by
  have ends : Returns getUpperLayerTypeForZephyr store draws fun _ _ rest => rest = draws := by
    apply returns_bind
    apply returns_load
    apply returns_bind
    apply returns_load
    apply returns_if fun _ => returns_pure rfl
    intro _
    apply returns_if fun _ => returns_pure rfl
    intro _
    apply returns_if
    · intro _
      apply returns_bind
      apply returns_load_word
      exact returns_pure rfl
    · intro _
      exact returns_pure rfl
  have known : Ensures getUpperLayerTypeForZephyr store
      (fun layer after => layer = layerAt store.memory ∧ after.memory = store.memory)
      fun _ _ => True := upper_layer_type_ensures store
  exact ends.ensured known

theorem choose_layer_returns (store : Store) (packet : BlePkt) (draws : Stream' Rand)
    (address : fieldOf store addressOffset = packet.address)
    (layer : layerAt store.memory = layerAt packet.image) :
    Returns chooseLayerMutator store draws fun chosen after _ =>
      chosen = chosenMutator packet draws ∧ after.memory = store.memory := by
  apply returns_bind
  apply returns_bind
  apply returns_bind
  apply returns_load_word
  apply returns_pure
  apply returns_pure
  change Returns (if decide (fieldOf store addressOffset ≠ advertisingAddress) then _ else _) _ _ _
  rw [address]
  apply returns_if
  · intro data
    have notAdvertising : ¬packet.address = advertisingAddress := of_decide_eq_true data
    apply returns_bind
    apply (upper_layer_type_returns _ draws).mono
    rintro parsed after rest ⟨rfl, layerOf, same⟩
    apply returns_bind
    apply returns_rand
    apply returns_pure
    rw [chosenMutator, if_neg notAdvertising, ← layer, layerOf]
    exact ⟨rfl, same⟩
  · intro advertising
    have isAdvertising : packet.address = advertisingAddress := by
      simpa using advertising
    apply returns_pure
    rw [chosenMutator, if_pos isAdvertising]
    exact ⟨rfl, rfl⟩

theorem run_layer_mutator_reports (store : Store) (chosen : Option LayerMutator) :
    Ensures (runLayerMutator chosen) store
      (fun ret after => (reports chosen (fieldOf store lenOffset) = true → ret = 1) ∧
        (reports chosen (fieldOf store lenOffset) = false →
          ret = 0 ∧ after.memory = store.memory))
      fun _ _ => True := by
  have reported {reporting : Bool} {program : Program Rand Nat} {start : Store}
      (returns : Ensures program start (fun ret _ => ret = 1) fun _ _ => True)
      (yes : reporting = true) :
      Ensures program start
        (fun ret after => (reporting = true → ret = 1) ∧
          (reporting = false → ret = 0 ∧ after.memory = store.memory)) fun _ _ => True := by
    apply returns.mono _ fun _ _ _ => trivial
    intro ret after one
    simp [one, yes]
  have silent {reporting : Bool} {start : Store} (no : reporting = false)
      (same : start.memory = store.memory) :
      Ensures (pure 0 : Program Rand Nat) start
        (fun ret after => (reporting = true → ret = 1) ∧
          (reporting = false → ret = 0 ∧ after.memory = store.memory)) fun _ _ => True := by
    apply ensures_pure
    simp [no, same]
  cases chosen with
  | none => exact silent rfl rfl
  | some layer =>
      cases layer with
      | llData =>
          apply ensures_bind
          apply ensures_load_field
          apply ensures_if
          · intro empty
            exact silent (decide_eq_false (Int.not_lt.mpr empty)) rfl
          · intro positive
            exact reported (overwrite_returns _ _ _ _) (decide_eq_true (Int.not_le.mp positive))
      | llAdvertising =>
          apply ensures_bind
          apply ensures_load_field
          apply ensures_if
          · intro empty
            exact silent (decide_eq_false (Int.not_lt.mpr empty)) rfl
          · intro positive
            exact reported (overwrite_returns _ _ _ _) (decide_eq_true (Int.not_le.mp positive))
      | l2cap =>
          apply ensures_bind
          apply ensures_load_field
          apply ensures_bind
          apply ensures_load_word
          apply ensures_if
          · intro empty
            exact silent (decide_eq_false (Int.not_lt.mpr empty)) rfl
          · intro positive
            apply reported _ (decide_eq_true (Int.not_le.mp positive))
            apply ensures_bind_any
            intro _ _
            apply ensures_bind_any
            intro _ _
            apply ensures_if
            · intro _
              exact ensures_pure rfl
            · intro _
              exact overwrite_returns _ _ _ _
      | att => exact reported (att_returns store) rfl
      | sm => exact reported (sm_returns store) rfl

abbrev lenByte : Nat := pktOffset + 1

theorem mark_reported (store : Store) (oldPayloadLen : UInt8) :
    Ensures (do rewriteHeaderLen; markMutated 1 oldPayloadLen; return 1 : Program Rand Nat) store
      (fun _ after => fieldOf after mutatedOffset = 1) fun _ _ => True := by
  apply ensures_bind_any
  intro _ middle
  apply ensures_bind
  apply (mark_mutated_ensures middle 1 oldPayloadLen).mono _ fun _ _ _ => trivial
  rintro _ after (one | ⟨zero, -⟩)
  · exact ensures_pure one
  · cases zero

theorem mark_unreported (store : Store) (oldPayloadLen : UInt8)
    (saved : oldPayloadLen.toUInt32 = fieldOf store lenOffset) :
    Ensures (do rewriteHeaderLen; markMutated 0 oldPayloadLen; return 0 : Program Rand Nat) store
      (fun _ after => after.memory =
        Function.update store.memory lenByte (fieldOf store lenOffset - 2 - 3).toUInt8)
      fun _ _ => True := by
  apply ensures_bind
  apply ensures_bind
  apply ensures_load_field
  apply ensures_save
  apply ensures_bind
  apply ensures_bind
  apply ensures_load_field
  apply ensures_whenever
  · intro marks
    have sameLen : fieldOf (((store.touch (List.range' (packetAddress + lenOffset) 4)).put
        (getLlDataHeader pktOffset + 1) (fieldOf store lenOffset - 2 - 3).toUInt8)) lenOffset =
        fieldOf store lenOffset := by
      apply field_at_congr
      intro index inWord
      apply Function.update_of_ne
      simp only [packetAddress, lenOffset, getLlDataHeader, pktOffset]
      omega
    rw [sameLen, saved] at marks
    rcases marks with reported | differs
    · exact absurd rfl reported
    · exact absurd rfl differs
  · intro _
    exact ensures_pure rfl

/-- The packet with a new length, in `len` and in the header. -/
def withLen (packet : BlePkt) (len : UInt32) : BlePkt :=
  { packet with len := len, pkt := packet.pkt.set 1 (len - 2 - 3).toUInt8 }

theorem record_pkt_set (before after : Store) (middle : Memory) (byte : UInt8)
    (redraw : Within Set.univ lenField before ⟨middle, []⟩)
    (written : after.memory = Function.update middle lenByte byte) :
    (recordOf after).pkt = (recordOf before).pkt.set 1 byte := by
  apply Vector.ext
  intro index inside
  rw [Vector.getElem_set, recordOf, of_memory_pkt_get, written]
  split_ifs with one
  · subst one
    exact Function.update_self _ _ _
  · rw [recordOf, of_memory_pkt_get, Function.update_of_ne]
    · apply redraw.unchanged
      intro inLen
      have bounds := Set.mem_Ico.mp inLen
      simp only [packetAddress, lenOffset, pktOffset] at bounds
      omega
    · simp only [packetAddress, lenByte, pktOffset]
      omega

theorem record_with_len (before after : Store) (middle : Memory)
    (redraw : Within Set.univ lenField before ⟨middle, []⟩)
    (written : after.memory = Function.update middle lenByte
      (fieldAt middle (packetAddress + lenOffset) - 2 - 3).toUInt8) :
    recordOf after = withLen (recordOf before) (fieldAt middle (packetAddress + lenOffset)) := by
  have byte (position : Nat) (apart : position ≠ lenByte) :
      after.memory position = middle position := by
    rw [written, Function.update_of_ne apart]
  have field (offset : Nat) (inFields : offset + 4 ≤ pktOffset) :
      fieldOf after offset = fieldAt middle (packetAddress + offset) := by
    apply field_at_congr
    intro index inWord
    apply byte
    simp only [packetAddress, lenByte, pktOffset] at inFields ⊢
    omega
  have kept (offset : Nat) (apart : offset + 4 ≤ lenOffset ∨ lenOffset + 4 ≤ offset)
      (inFields : offset + 4 ≤ pktOffset) : fieldOf after offset = fieldOf before offset := by
    rw [field offset inFields]
    apply within_field_of redraw offset
    intro index inWord inLen
    have bounds := Set.mem_Ico.mp inLen
    omega
  have pkt := record_pkt_set before after middle _ redraw written
  have sid := kept 0 (by decide) (by decide)
  have deviceId := kept deviceIdOffset (by decide) (by decide)
  have mutated := kept mutatedOffset (by decide) (by decide)
  have address := kept addressOffset (by decide) (by decide)
  have len := field lenOffset (by decide)
  have maxPayloadLen := kept maxPayloadLenOffset (by decide) (by decide)
  unfold withLen
  rw [← pkt, ← len]
  exact BlePkt.ext sid deviceId mutated address rfl maxPayloadLen rfl

theorem redrawn_len_le (packet : BlePkt) (draws : Stream' Rand) (lenUpper : packet.len.toNat ≤ 255)
    (limit : packet.maxPayloadLen.toNat ≤ 250) : (redrawnLen packet draws).toNat ≤ 255 := by
  unfold redrawnLen
  split_ifs
  · have bound := (clamp_le packet.maxPayloadLen).2
    have below : draws.tail.head.val % ((clamp packet.maxPayloadLen).toNat + 1) <
        (clamp packet.maxPayloadLen).toNat + 1 := Nat.mod_lt _ (Nat.succ_pos _)
    rw [UInt32.toNat_ofNat', Nat.mod_eq_of_lt] <;> omega
  · exact lenUpper

theorem unreported_with_len (before current : Store) (draws : Stream' Rand) {len : UInt32}
    (redraw : Within Set.univ lenField before ⟨current.memory, []⟩)
    (new : fieldOf current lenOffset = len) (small : len.toNat ≤ 255) :
    Returns (do rewriteHeaderLen; markMutated 0 len.toUInt8; return 0 : Program Rand Nat) current
      draws fun _ after _ => recordOf after = withLen (recordOf before) len := by
  have saved : len.toUInt8.toUInt32 = fieldOf current lenOffset := by
    rw [new]
    apply UInt32.toNat_inj.mp
    rw [UInt8.toNat_toUInt32, UInt32.toNat_toUInt8]
    exact Nat.mod_eq_of_lt (Nat.lt_succ_of_le small)
  apply ((header_and_mark_faultless 0 _).returns (mark_unreported current _ saved)).mono
  intro _ after _ written
  rw [record_with_len before after current.memory redraw written]
  exact congrArg _ new

/-- What the draws decide is what `mutate_strategy` does: a reported mutation is
marked, and without one the packet has its new length and is otherwise as before. -/
theorem mutate_strategy_returns (store : Store) (draws : Stream' Rand) (packet : BlePkt)
    (placed : recordOf store = packet) (parsed : layerAt store.memory = layerAt packet.image)
    (small : (redrawnLen packet draws).toNat ≤ 255) :
    Returns mutateStrategy store draws fun _ after _ =>
      (reports (chosenMutator packet (afterRedraw draws)) (redrawnLen packet draws) = true →
        (recordOf after).mutated = 1) ∧
      (reports (chosenMutator packet (afterRedraw draws)) (redrawnLen packet draws) = false →
        recordOf after = withLen packet (redrawnLen packet draws)) := by
  subst placed
  apply returns_bind
  apply (redraw_len_returns store draws).mono
  rintro _ middle rest ⟨⟨newLen, rfl⟩, redraw⟩
  apply returns_bind
  apply returns_load_field
  apply returns_bind
  have outsideLen (position : Nat) (apart : position < lenOffset ∨ lenOffset + 4 ≤ position) :
      position ∉ lenField := by
    intro inLen
    have bounds := Set.mem_Ico.mp inLen
    omega
  have address : fieldOf middle addressOffset = (recordOf store).address := by
    apply within_field_of redraw addressOffset
    intro index inWord
    apply outsideLen
    simp only [addressOffset, lenOffset]
    omega
  have layer : layerAt middle.memory = layerAt (recordOf store).image := by
    rw [← parsed]
    apply layer_at_congr
    intro position fromPkt _
    apply redraw.unchanged position (outsideLen position (.inr (Nat.le_trans (by decide) fromPkt)))
  apply (choose_layer_returns (middle.touch _) (recordOf store) _ address layer).mono
  rintro chosen current left ⟨rfl, same⟩
  have sameMemory : current.memory = middle.memory := same
  have sameLen : fieldOf current lenOffset = redrawnLen (recordOf store) draws := by
    rw [← newLen]
    exact field_of_congr sameMemory _
  apply returns_bind
  apply ((run_layer_mutator_faultless _).returns (run_layer_mutator_reports current _)).mono
  rw [sameLen]
  rintro ret mutated _ ⟨reported, unreported⟩
  rw [newLen]
  cases choice : reports (chosenMutator (recordOf store) (afterRedraw draws))
      (redrawnLen (recordOf store) draws) with
  | true =>
      obtain rfl := reported choice
      apply ((header_and_mark_faultless 1 _).returns (mark_reported mutated _)).mono
      intro _ after _ marked
      exact ⟨fun _ => marked, fun no => by cases no⟩
  | false =>
      obtain ⟨rfl, untouched⟩ := unreported choice
      have memory : mutated.memory = middle.memory := untouched.trans sameMemory
      have len : fieldOf mutated lenOffset = redrawnLen (recordOf store) draws := by
        rw [← newLen]
        exact field_of_congr memory _
      have kept : Within Set.univ lenField store ⟨mutated.memory, []⟩ := by
        refine ⟨fun position outside => ?_, fun _ member => by cases member⟩
        change mutated.memory position = _
        rw [memory]
        exact redraw.unchanged position outside
      apply (unreported_with_len store mutated _ kept len small).mono
      intro _ after _ record
      exact ⟨fun yes => (by cases yes), fun _ => record⟩

def Changed (before after : BlePkt) : Prop := after.len ≠ before.len ∨ after.pkt ≠ before.pkt

/-- If the call returns the packet changed, it is marked. -/
def TellsTruth (beyond : Memory) (config : PktselConfig) (idx : Nat) (packet : BlePkt)
    (draws : Stream' Rand) : Prop :=
  ∀ ret after, runMutator (mutatePkt config idx) beyond packet draws = .ok ret after →
    Changed packet (recordOf after.store) → (recordOf after.store).mutated = 1

/-- The draws take the packet to a layer mutator that finds nothing to mutate, or
to none, and give it another length than it has or than its header says. -/
structure ChangedUnreported (config : PktselConfig) (idx : Nat) (packet : BlePkt)
    (draws : Stream' Rand) : Prop where
  long : packet.len ≠ 5
  selected : selects config idx draws = true
  unreported : reports (chosenMutator packet (afterRedraw (draws.drop (selectorDraws config))))
    (redrawnLen packet (draws.drop (selectorDraws config))) = false
  differs : redrawnLen packet (draws.drop (selectorDraws config)) ≠ packet.len ∨
    packet.pkt[1] ≠ (redrawnLen packet (draws.drop (selectorDraws config)) - 2 - 3).toUInt8

theorem changed_with_len_iff (packet : BlePkt) (len : UInt32) :
    Changed packet (withLen packet len) ↔ len ≠ packet.len ∨ packet.pkt[1] ≠ (len - 2 - 3).toUInt8 := by
  apply or_congr_right
  apply not_congr
  constructor
  · intro same
    have byte : (packet.pkt.set 1 (len - 2 - 3).toUInt8)[1] = packet.pkt[1] :=
      congrArg (fun pkt : Vector UInt8 blePktMaxLen => pkt[1]) same
    rw [Vector.getElem_set_self] at byte
    exact byte.symm
  · intro same
    change packet.pkt.set 1 (len - 2 - 3).toUInt8 = packet.pkt
    rw [← same]
    exact Vector.set_getElem_self _

/-- A packet that is selected returns as `mutate_strategy` leaves it. -/
theorem selected_returns (packet : BlePkt) (beyond : Memory) (config : PktselConfig)
    (idx : Nat) (draws : Stream' Rand) (lenUpper : packet.len.toNat ≤ 255)
    (limit : packet.maxPayloadLen.toNat ≤ 250) (long : packet.len ≠ 5)
    (selected : selects config idx draws = true) {mutating : Stream' Rand}
    (rest : mutating = draws.drop (selectorDraws config)) :
    Returns (mutatePkt config idx) (place packet beyond) draws fun _ after _ =>
      (reports (chosenMutator packet (afterRedraw mutating)) (redrawnLen packet mutating) = true →
        (recordOf after).mutated = 1) ∧
      (reports (chosenMutator packet (afterRedraw mutating)) (redrawnLen packet mutating) = false →
        recordOf after = withLen packet (redrawnLen packet mutating)) := by
  apply returns_bind
  apply returns_load_field
  rw [(place_field packet beyond).1]
  apply returns_if fun five => absurd five long
  intro _
  apply returns_bind
  apply should_mutate_returns
  rw [selected, ← rest]
  apply returns_if _ fun unselected => absurd rfl unselected
  intro _
  apply mutate_strategy_returns
  · exact record_of_place packet beyond
  · exact layer_at_congr fun position _ inside => if_pos inside
  · exact redrawn_len_le packet mutating lenUpper limit

/-- An unmarked packet that `mutate_pkt` changes is marked, except for the draws
that change it unreported. -/
theorem mutated_tells_truth_iff (packet : BlePkt) (beyond : Memory) (config : PktselConfig)
    (idx : Nat) (draws : Stream' Rand) (lenUpper : packet.len.toNat ≤ 255)
    (limit : packet.maxPayloadLen.toNat ≤ 250) (unmarked : packet.mutated = 0) :
    TellsTruth beyond config idx packet draws ↔ ¬ChangedUnreported config idx packet draws := by
  by_cases passes : packet.len = 5 ∨ selects config idx draws = false
  · obtain ⟨final, run, same⟩ := unselected_unchanged config idx packet beyond draws passes
    constructor
    · intro _ silent
      rcases passes with five | unselected
      · exact silent.long five
      · rw [silent.selected] at unselected
        cases unselected
    · intro _ ret after again changed
      rw [run] at again
      cases again
      rw [same] at changed
      rcases changed with len | pkt
      · exact absurd rfl len
      · exact absurd rfl pkt
  obtain ⟨long, chosen⟩ := not_or.mp passes
  have selected : selects config idx draws = true := by simpa using chosen
  have returns := selected_returns packet beyond config idx draws lenUpper limit long selected rfl
  constructor
  · intro truthful silent
    obtain ⟨ret, final, rest, run, -, unreported⟩ := returns
    have record := unreported silent.unreported
    have marked := truthful ret ⟨final, rest⟩ run
    change Changed packet (recordOf final) → (recordOf final).mutated = 1 at marked
    rw [record] at marked
    have one := marked ((changed_with_len_iff packet _).mpr silent.differs)
    rw [withLen, unmarked] at one
    exact absurd one (by decide)
  · intro loud ret after run changed
    obtain ⟨reported, unreported⟩ := returns.returned run
    cases choice : reports (chosenMutator packet
        (afterRedraw (draws.drop (selectorDraws config))))
        (redrawnLen packet (draws.drop (selectorDraws config))) with
    | true => exact reported choice
    | false =>
        rw [unreported choice] at changed
        exact absurd ⟨long, selected, choice, (changed_with_len_iff packet _).mp changed⟩ loud

def llDataDraws : Stream' Rand := [0, 50, 0].map drawnOf ++ₛ Stream'.const (drawnOf 50)

def shortenedDraws : Stream' Rand := [0, 0, 3, 99].map drawnOf ++ₛ Stream'.const (drawnOf 0)

theorem ll_data_marked : TellsTruth zeros mixedConfig 0 mtuRequest llDataDraws := by
  apply (mutated_tells_truth_iff mtuRequest zeros mixedConfig 0 llDataDraws (by decide) (by decide)
    rfl).mpr
  intro silent
  exact absurd silent.unreported (by decide +kernel)

theorem shortened_unmarked :
    5 ≤ mtuRequest.len.toNat ∧ mtuRequest.len.toNat ≤ 255 ∧ mtuRequest.maxPayloadLen.toNat ≤ 250 ∧
      mtuRequest.mutated = 0 ∧ ¬TellsTruth zeros mixedConfig 0 mtuRequest shortenedDraws := by
  refine ⟨by decide, by decide, by decide, rfl, ?_⟩
  intro truthful
  obtain ⟨ret, final, rest, run, -, unreported⟩ := selected_returns mtuRequest zeros mixedConfig 0
    shortenedDraws (by decide) (by decide) (by decide) (by decide +kernel) rfl
  have record := unreported (by decide +kernel)
  have marked := truthful ret ⟨final, rest⟩ run
  change Changed mtuRequest (recordOf final) → (recordOf final).mutated = 1 at marked
  rw [record] at marked
  have one := marked (.inl (by decide +kernel))
  exact absurd one (by decide)

end Blueman.MutatorFullStack2Flag
