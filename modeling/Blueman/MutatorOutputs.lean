import Blueman.MutatorFullStack2Flag
import Blueman.ReachableBytes

/-!
# What the field-aware mutator can send

All that `mutate_pkt` can leave of a packet, over all draws and under every strategy:
nothing but a new length, then what one of the mutators offered for its layer can
leave, then the length byte and the flag.
-/

namespace Blueman.MutatorOutputs

open LittleEndian ByteMachine BlePacket MutateStrategy Mutator PacketSelection MutatorFullStack2
open MutatorFullStack2Frame MutatorFullStack2Flag ReachableBytes

set_option autoImplicit false

/-- The memory with a new length for a payload of `payloadLen` bytes. -/
def lengthened (payloadLen : Nat) (memory : Memory) : Memory :=
  writeWord 4 memory (packetAddress + lenOffset) (UInt32.ofNat (payloadLen + 2 + 3)).toBitVec

def LenDrawn (before after : Memory) : Prop :=
  after = before ∨
    ∃ payloadLen, payloadLen ≤
        (clamp (fieldAt before (packetAddress + maxPayloadLenOffset))).toNat ∧
      after = lengthened payloadLen before

/-- The layer mutators, or none, that `r` can choose for a layer. -/
def offered : FuzzLayer → List (Option LayerMutator)
  | .ll => [some .llData, none]
  | .l2cap => [some .llData, some .l2cap, none]
  | .att => [some .llData, some .l2cap, some .att, none]
  | .sm => [some .llData, some .l2cap, some .sm, none]

def choices (memory : Memory) : List (Option LayerMutator) :=
  if fieldAt memory (packetAddress + addressOffset) = advertisingAddress then
    [some .llAdvertising]
  else offered (layerAt memory)

def ChosenReached (len : UInt32) : Option LayerMutator → Memory → Memory → Prop
  | none => fun before after => after = before
  | some layer => LayerReached len layer

/-- The length byte rewritten, and the packet marked if something is reported or the
length is not the saved one. -/
def finished (ret : Nat) (oldPayloadLen : UInt8) (memory : Memory) : Memory :=
  let len := fieldAt memory (packetAddress + lenOffset)
  let written := Function.update memory lenByte (len - 2 - 3).toUInt8
  if ret ≠ 0 ∨ oldPayloadLen.toUInt32 ≠ len then
    writeWord 4 written (packetAddress + mutatedOffset) (1 : UInt32).toBitVec
  else written

/-- What `mutate_strategy` can leave. -/
def StrategyReached (before after : Memory) : Prop :=
  ∃ drawn, LenDrawn before drawn ∧ ∃ chosen ∈ choices drawn, ∃ mutated,
    let len := fieldAt drawn (packetAddress + lenOffset)
    ChosenReached len chosen drawn mutated ∧
      after = finished (reports chosen len).toNat len.toUInt8 mutated

section

variable {store : Store} {memory : Memory}

theorem len_drawn_ensures (store : Store) :
    Ensures redrawLen store (fun _ after => LenDrawn store.memory after.memory)
      fun _ _ => True := by
  apply ensures_bind
  apply ensures_rand
  intro choice _
  apply ensures_whenever
  · intro _
    apply ensures_bind
    apply ensures_load_field
    apply ensures_bind
    apply ensures_rand
    intro drawn _
    apply ensures_bind
    apply ensures_remainder (fun zero => absurd zero (Nat.succ_ne_zero _))
    intro positive
    apply ensures_save_word
    exact .inr ⟨_, Nat.le_of_lt_succ (Nat.mod_lt drawn positive), rfl⟩
  · exact fun _ => .inl rfl

theorem len_drawn_possibly (drawn : LenDrawn store.memory memory) :
    Possibly redrawLen store fun _ after => after.memory = memory := by
  apply possibly_bind
  cases drawn with
  | inl same =>
      apply possibly_rand 50 (by decide)
      apply possibly_whenever
      · exact fun low => absurd low (by decide)
      · exact fun _ => same.symm
  | inr drawn =>
      obtain ⟨payloadLen, within, same⟩ := drawn
      have limit := (clamp_le (fieldOf store maxPayloadLenOffset)).1
      have inLimit : payloadLen ≤ (clamp (fieldOf store maxPayloadLenOffset)).toNat := within
      have drawable : payloadLen ≤ randMax := by
        have large : 255 ≤ randMax := by decide
        omega
      apply possibly_rand 0 (by decide)
      apply possibly_whenever
      · intro _
        apply possibly_bind
        apply possibly_load_field
        apply possibly_bind
        apply possibly_rand payloadLen drawable
        apply possibly_bind
        apply possibly_remainder (Nat.succ_pos _)
        rw [Nat.mod_eq_of_lt (Nat.lt_succ_of_le inLimit)]
        apply possibly_save_word
        rw [same]
        rfl
      · exact fun high => absurd (by decide) high

theorem select_offered (topLayerType : FuzzLayer) (r : Nat) :
    selectLayerMutator topLayerType r ∈ offered topLayerType := by
  cases topLayerType <;>
    unfold selectLayerMutator <;>
    split_ifs <;>
    simp [offered]

def offeringDraw : Option LayerMutator → Nat
  | some .llData => 0
  | some .l2cap => 25
  | some .att | some .sm => 50
  | some .llAdvertising | none => 75

theorem offered_select (topLayerType : FuzzLayer) :
    ∀ chosen ∈ offered topLayerType,
      offeringDraw chosen < 100 ∧
        selectLayerMutator topLayerType (offeringDraw chosen) = chosen := by
  cases topLayerType <;> decide

theorem choice_ensures (store : Store) :
    Ensures chooseLayerMutator store
      (fun chosen after => chosen ∈ choices store.memory ∧ after.memory = store.memory)
      fun _ _ => True := by
  apply ensures_bind
  apply ensures_bind
  apply ensures_load_field
  apply ensures_pure
  apply ensures_if
  · intro data
    have notAdvertising : ¬fieldAt store.memory (packetAddress + addressOffset) =
        advertisingAddress := of_decide_eq_true data
    apply ensures_bind
    apply (upper_layer_type_ensures _).mono
    · intro layer after ⟨parsed, same⟩
      apply ensures_bind
      apply ensures_rand
      intro drawn _
      apply ensures_pure
      refine ⟨?_, same⟩
      rw [choices, if_neg notAdvertising, parsed]
      exact select_offered _ _
    · exact fun _ _ absurd => absurd
  · intro advertising
    have isAdvertising : fieldAt store.memory (packetAddress + addressOffset) =
        advertisingAddress := by
      by_contra differs
      exact advertising (decide_eq_true differs)
    apply ensures_pure
    refine ⟨?_, rfl⟩
    rw [choices, if_pos isAdvertising]
    exact List.mem_singleton_self _

theorem choice_possibly {chosen : Option LayerMutator} (member : chosen ∈ choices store.memory) :
    Possibly chooseLayerMutator store
      fun value after => value = chosen ∧ after.memory = store.memory := by
  apply possibly_bind
  apply possibly_bind
  apply possibly_load_field
  apply possibly_pure
  unfold choices at member
  split_ifs at member with advertising
  · apply possibly_if
    · exact fun data => absurd advertising (of_decide_eq_true data)
    · intro _
      exact possibly_pure ⟨(List.mem_singleton.mp member).symm, rfl⟩
  · obtain ⟨below, selects⟩ := offered_select _ chosen member
    have drawable : offeringDraw chosen ≤ randMax := Nat.le_trans (Nat.le_of_lt below) (by decide)
    apply possibly_if
    · intro _
      apply possibly_bind
      apply (upper_layer_type_possibly _).mono
      intro layer after ⟨parsed, same⟩
      apply possibly_bind
      apply possibly_rand _ drawable
      apply possibly_pure
      rw [Nat.mod_eq_of_lt below, parsed]
      exact ⟨selects, same⟩
    · exact fun other => absurd (decide_eq_true advertising) other

theorem chosen_ensures (chosen : Option LayerMutator) (store : Store) :
    Ensures (runLayerMutator chosen) store
      (fun ret after =>
        ChosenReached (fieldOf store lenOffset) chosen store.memory after.memory ∧
          ret = (reports chosen (fieldOf store lenOffset)).toNat)
      fun _ _ => True := by
  have reached : Ensures (runLayerMutator chosen) store
      (fun _ after => ChosenReached (fieldOf store lenOffset) chosen store.memory after.memory)
      fun _ _ => True := by
    cases chosen with
    | none => exact ensures_pure rfl
    | some layer => exact layer_ensures layer store
  apply (reached.both (run_layer_mutator_reports store chosen)).mono
  · intro ret after ⟨reached, reported, unreported⟩
    refine ⟨reached, ?_⟩
    cases choice : reports chosen (fieldOf store lenOffset) with
    | true => exact reported choice
    | false => exact (unreported choice).1
  · exact fun _ _ _ => trivial

theorem chosen_possibly {chosen : Option LayerMutator}
    (reached : ChosenReached (fieldOf store lenOffset) chosen store.memory memory) :
    Possibly (runLayerMutator chosen) store fun ret after => after.memory = memory ∧
      ret = (reports chosen (fieldOf store lenOffset)).toNat := by
  have left : Possibly (runLayerMutator chosen) store fun _ after => after.memory = memory := by
    cases chosen with
    | none => exact possibly_pure reached.symm
    | some layer => exact layer_possibly reached
  apply (left.ensured (chosen_ensures chosen store)).mono
  exact fun ret after both => ⟨both.1, both.2.2⟩

theorem len_kept (memory : Memory) (byte : UInt8) :
    fieldAt (Function.update memory lenByte byte) (packetAddress + lenOffset) =
      fieldAt memory (packetAddress + lenOffset) := by
  apply field_at_congr
  intro index inWord
  apply Function.update_of_ne
  simp only [packetAddress, lenOffset, lenByte, pktOffset]
  omega

theorem finish_ensures (ret : Nat) (oldPayloadLen : UInt8) (store : Store) :
    Ensures (do rewriteHeaderLen; markMutated ret oldPayloadLen; return ret : Program Rand Nat)
      store (fun _ after => after.memory = finished ret oldPayloadLen store.memory)
      fun _ _ => True := by
  apply ensures_bind
  apply ensures_bind
  apply ensures_load_field
  apply ensures_save
  apply ensures_bind
  apply ensures_bind
  apply ensures_load_field
  apply ensures_whenever
  · intro marks
    apply ensures_save_word
    apply ensures_pure
    change ret ≠ 0 ∨ oldPayloadLen.toUInt32 ≠ fieldAt (Function.update _ lenByte _) _ at marks
    rw [len_kept] at marks
    exact (if_pos marks).symm
  · intro neither
    apply ensures_pure
    change ¬(ret ≠ 0 ∨ oldPayloadLen.toUInt32 ≠ fieldAt (Function.update _ lenByte _) _) at neither
    rw [len_kept] at neither
    exact (if_neg neither).symm

theorem finish_possibly (ret : Nat) (oldPayloadLen : UInt8) (store : Store) :
    Possibly (do rewriteHeaderLen; markMutated ret oldPayloadLen; return ret : Program Rand Nat)
      store fun _ after => after.memory = finished ret oldPayloadLen store.memory := by
  have ends : Possibly
      (do rewriteHeaderLen; markMutated ret oldPayloadLen; return ret : Program Rand Nat)
      store fun _ _ => True := by
    apply possibly_bind
    apply possibly_bind
    apply possibly_load_field
    apply possibly_save
    apply possibly_bind
    apply possibly_bind
    apply possibly_load_field
    apply possibly_whenever
    · intro _
      exact possibly_save_word (possibly_pure trivial)
    · exact fun _ => possibly_pure trivial
  apply (ends.ensured (finish_ensures ret oldPayloadLen store)).mono
  exact fun _ _ both => both.2

theorem strategy_ensures (store : Store) :
    Ensures mutateStrategy store (fun _ after => StrategyReached store.memory after.memory)
      fun _ _ => True := by
  apply ensures_bind
  apply (len_drawn_ensures store).mono
  · intro _ drawn lenDrawn
    apply ensures_bind
    apply ensures_load_field
    apply ensures_bind
    apply (choice_ensures _).mono
    · intro chosen parsed ⟨member, same⟩
      have sameLen : fieldOf parsed lenOffset = fieldOf drawn lenOffset := field_of_congr same _
      apply ensures_bind
      apply (chosen_ensures chosen parsed).mono
      · intro ret mutated ⟨reached, returned⟩
        rw [sameLen] at reached returned
        rw [same] at reached
        apply (finish_ensures ret _ mutated).mono
        · intro _ after finishes
          rw [returned] at finishes
          exact ⟨drawn.memory, lenDrawn, chosen, member, mutated.memory, reached, finishes⟩
        · exact fun _ _ _ => trivial
      · exact fun _ _ _ => trivial
    · exact fun _ _ _ => trivial
  · exact fun _ _ _ => trivial

theorem strategy_possibly (reached : StrategyReached store.memory memory) :
    Possibly mutateStrategy store fun _ after => after.memory = memory := by
  obtain ⟨lengthened, lenDrawn, chosen, member, left, leaves, finishes⟩ := reached
  apply possibly_bind
  apply (len_drawn_possibly lenDrawn).mono
  intro _ drawn redrawn
  apply possibly_bind
  apply possibly_load_field
  apply possibly_bind
  have offers : chosen ∈ choices drawn.memory := by rwa [redrawn]
  apply (@choice_possibly (drawn.touch _) chosen offers).mono
  intro value parsed ⟨valued, same⟩
  have sameLen : fieldOf parsed lenOffset = fieldOf drawn lenOffset := field_of_congr same _
  have len : fieldOf drawn lenOffset = fieldAt lengthened (packetAddress + lenOffset) := by
    rw [← redrawn]
    rfl
  have reaches : ChosenReached (fieldOf parsed lenOffset) chosen parsed.memory left := by
    rw [sameLen, len, same]
    rw [← redrawn] at leaves ⊢
    exact leaves
  rw [valued]
  apply possibly_bind
  apply (chosen_possibly reaches).mono
  intro ret mutated ⟨leftBehind, returned⟩
  apply (finish_possibly ret _ mutated).mono
  intro _ after ends
  rw [ends, finishes, leftBehind, returned, sameLen, len]

theorem set_up_selectable (config : PktselConfig) (number : Nat) (entryIndex : UInt64)
    (idx : Nat) : Selectable (selectionStrategySetup config number entryIndex) idx := by
  unfold Selectable selectionStrategySetup
  cases PktselMode.ofNumber number with
  | selective25_75 | selective75_25 =>
      dsimp only
      split_ifs <;> decide
  | randomProb | mixedProb => trivial
  | _ =>
      dsimp only
      decide

theorem set_up_possibly_skips (config : PktselConfig) (number : Nat) (entryIndex : UInt64)
    (idx : Nat) (store : Store) :
    Possibly (shouldMutatePacket (selectionStrategySetup config number entryIndex) idx) store
      fun chosen after => chosen = false ∧ after = store := by
  have greatest (prob : UnitFloat) (most : prob ≤ one) :
      Possibly (do let r := randFloat (← rand); return decide (r < prob)) store
        fun chosen after => chosen = false ∧ after = store := by
    apply possibly_bind
    apply possibly_rand randMax (Nat.le_refl _)
    apply possibly_pure
    have reached : one ≤ randFloat randMax := by decide
    exact ⟨decide_eq_false (Nat.not_lt_of_le (Nat.le_trans most reached)), rfl⟩
  unfold shouldMutatePacket selectionProb selectionStrategySetup
  apply possibly_bind
  cases PktselMode.ofNumber number with
  | randomProb =>
      apply possibly_bind
      apply possibly_rand 0 (by decide)
      exact possibly_pure (greatest _ (by decide))
  | selective25_75 | selective75_25 =>
      apply possibly_pure
      dsimp only
      split_ifs
      · exact greatest _ (by decide)
      · exact greatest _ (by decide)
  | _ =>
      dsimp only
      exact possibly_pure (greatest _ (by decide))

end

/-- Under any strategy and over all draws `mutate_pkt` leaves exactly the packet as it was
and, if that has a payload, what `mutate_strategy` can leave: for a layer that the packet
has, a length that can be drawn, the fields its mutator may rewrite and any payload of the
length that havoc takes, with the length byte and the flag to go with them. -/
theorem mutate_pkt_yields_iff (config : PktselConfig) (number : Nat) (entryIndex : UInt64)
    (idx : Nat) (store : Store) (memory : Memory) :
    Yields (mutatePkt (selectionStrategySetup config number entryIndex) idx) store memory ↔
      memory = store.memory ∨
        fieldOf store lenOffset ≠ 2 + 3 ∧ StrategyReached store.memory memory := by
  apply @yields_iff Rand Nat store _ _
    (fun memory => memory = store.memory ∨
      fieldOf store lenOffset ≠ 2 + 3 ∧ StrategyReached store.memory memory) (fun _ _ => True)
  · apply ensures_bind
    apply ensures_load_field
    apply ensures_if
    · exact fun _ => ensures_pure (.inl rfl)
    · intro long
      apply ensures_bind
      apply (should_mutate_store _ idx _).mono
      · intro selected middle same
        rw [same]
        apply ensures_if
        · intro _
          apply (strategy_ensures _).mono
          · exact fun _ _ reached => .inr ⟨long, reached⟩
          · exact fun _ _ _ => trivial
        · exact fun _ => ensures_pure (.inl rfl)
      · exact fun _ _ absurd => absurd.elim
  · intro memory reached
    apply possibly_bind
    apply possibly_load_field
    apply possibly_if
    · intro short
      cases reached with
      | inl same => exact possibly_pure same.symm
      | inr mutated => exact absurd short mutated.1
    · intro _
      apply possibly_bind
      cases reached with
      | inl same =>
          apply (set_up_possibly_skips config number entryIndex idx _).mono
          intro selected middle ⟨skipped, unchanged⟩
          rw [skipped, unchanged]
          exact possibly_pure same.symm
      | inr mutated =>
          apply (selectable_possibly _ idx _ (set_up_selectable config number entryIndex idx)).mono
          intro selected middle ⟨chosen, unchanged⟩
          rw [chosen, unchanged]
          exact strategy_possibly mutated.2

end Blueman.MutatorOutputs
